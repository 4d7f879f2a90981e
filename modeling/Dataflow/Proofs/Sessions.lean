import Dataflow.Analysis.Session
import Dataflow.Proofs.Convergence

/-!
# What a session remembers

A session answers from memory where it can.  Nobody notices, as long as a function that changes is
forgotten before it is asked about again: every answer is the one that an analysis from scratch
gives.

What a session has filed is a function of its history: under a kind and a name stands the output for
the function that was first asked about since the name was last forgotten.  One more event is
compared with the memory once, in `Reflects.request_cases`; all else is derived from that.

* `Session.Call`, `Session.performAll`: what a session can be asked, and its answers.
* `Session.Event`, `Session.since`, `Session.first?`: the history, and what it says about the
  memory.
* `Session.Reflects`, `Session.Advances`: the memory agrees with the history; the step from one
  history to a longer one.
* `Session.performAll_transparent`: **a session answers as if it remembered nothing**, and its
  record has one entry for each request that was not answered from memory.
-/

namespace Dataflow

@[simp] theorem Pass.filed_ofKind (kind : Kind) : (Pass.ofKind kind).filed = kind := rfl

@[simp] theorem Pass.analysis_ofKind (kind : Kind) : (Pass.ofKind kind).analysis = kind := rfl

theorem Kind.gives_analyze (kind : Kind) (f : Function) : kind.gives (kind.analyze f) = true := by
  cases kind <;> rfl

/-- Entries that are kept by their keys are found, the others are not. -/
theorem lookup_filter_key {κ ν : Type} [BEq κ] [LawfulBEq κ] (test : κ → Bool) (l : List (κ × ν))
    (k : κ) :
    (l.filter fun e => test e.1).lookup k = if test k then l.lookup k else none := by
  induction l with
  | nil => simp
  | cons e l ih =>
    obtain ⟨key, value⟩ := e
    rw [List.filter_cons, List.lookup_cons]
    cases hk : k == key with
    | true =>
      obtain rfl := eq_of_beq hk
      by_cases htest : test k = true
      · simp [htest]
      · simp [htest, ih]
    | false =>
      by_cases htest : test key = true
      · simpa [htest, List.lookup_cons, hk] using ih
      · simpa [htest] using ih

namespace Session

/-! ## Calls -/

/-- What a session can be asked. -/
inductive Call where
  /-- One analysis of one function. -/
  | run (kind : Kind) (f : Function)
  /-- One analysis of all functions of a module. -/
  | runModule (kind : Kind) (m : Module)
  /-- A function has changed. -/
  | invalidate (function : String)
  /-- Runs are recorded from now on. -/
  | enableStatistics

/-- What a session answers. -/
inductive Reply where
  | output (output : Output)
  | outputs (outputs : List (String × Output))
  | done

/-- The answer to a call, and the session after it. -/
def perform (s : Session) : Call → Reply × Session
  | .run kind f =>
    let (output, s) := s.request (.ofKind kind) f
    (.output output, s)
  | .runModule kind m =>
    let (outputs, s) := s.requestModule (.ofKind kind) m
    (.outputs outputs, s)
  | .invalidate function => (.done, s.invalidate function)
  | .enableStatistics => (.done, s.enableStatistics)

/-- The answers to calls, one after another. -/
def performAll (s : Session) : List Call → List Reply × Session
  | [] => ([], s)
  | call :: rest =>
    let (reply, s) := s.perform call
    let (replies, s) := s.performAll rest
    (reply :: replies, s)

/-- The answer of an analysis from scratch. -/
def Call.fresh : Call → Reply
  | .run kind f => .output (kind.analyze f)
  | .runModule kind m => .outputs ((Pass.ofKind kind).analyzeModule m)
  | .invalidate _ | .enableStatistics => .done

/-! ## Histories -/

/-- What can make a difference to the memory. -/
inductive Event where
  | request (kind : Kind) (f : Function)
  | forget (function : String)
deriving DecidableEq

/-- The events of a call.  A module asks about its functions in order. -/
def Call.events : Call → List Event
  | .run kind f => [.request kind f]
  | .runModule kind m => m.functions.values.map (.request kind)
  | .invalidate function => [.forget function]
  | .enableStatistics => []

/-- What happened since a function was last forgotten. -/
def since (past : List Event) (function : String) : List Event :=
  (past.reverse.takeWhile (· ≠ .forget function)).reverse

/-- The function, if the event asks about it under a kind and a name. -/
def Event.asked? (kind : Kind) (name : String) : Event → Option Function
  | .request kind' f => if kind' = kind ∧ f.name = name then some f else none
  | .forget _ => none

/-- The function that was first asked about under a kind and a name, since the name was last
forgotten. -/
def first? (past : List Event) (kind : Kind) (name : String) : Option Function :=
  (since past name).findSome? (Event.asked? kind name)

/-- The functions that are asked about. -/
def presented (events : List Event) : List Function :=
  events.filterMap fun
    | .request _ f => some f
    | .forget _ => none

/-- Between two requests about different functions of one name, the name is forgotten. -/
def Steady (past : List Event) : List Event → Prop
  | [] => True
  | .request kind f :: rest =>
    (∀ g ∈ presented (since past f.name), g.name = f.name → g = f) ∧
    Steady (past ++ [.request kind f]) rest
  | .forget function :: rest => Steady (past ++ [.forget function]) rest

instance decidableSteady : (past events : List Event) → Decidable (Steady past events)
  | _, [] => .isTrue trivial
  | past, .request kind f :: rest =>
    @instDecidableAnd _ _ inferInstance (decidableSteady (past ++ [.request kind f]) rest)
  | past, .forget function :: rest => decidableSteady (past ++ [.forget function]) rest

/-- The requests that nothing is remembered for. -/
def misses (past : List Event) : List Event → List (Kind × Function)
  | [] => []
  | .request kind f :: rest =>
    (if (first? past kind f.name).isSome then [] else [(kind, f)]) ++
      misses (past ++ [.request kind f]) rest
  | .forget function :: rest => misses (past ++ [.forget function]) rest

/-- The record of an analysis from scratch. -/
def freshRecord (run : Kind × Function) : Statistic :=
  ⟨run.1.name, run.2.name, (run.1.analyze run.2).stats⟩

theorem since_concat (past : List Event) (e : Event) (function : String) :
    since (past ++ [e]) function =
      if e = .forget function then [] else since past function ++ [e] := by
  rw [since, List.reverse_append, List.reverse_singleton, List.singleton_append,
    List.takeWhile_cons]
  by_cases he : e = .forget function
  · simp [he]
  · simp [he, since]

theorem first?_request (past : List Event) (kind kind' : Kind) (f : Function) (name : String) :
    first? (past ++ [.request kind f]) kind' name =
      (first? past kind' name).or (if kind = kind' ∧ f.name = name then some f else none) := by
  rw [first?, since_concat, if_neg Event.noConfusion, List.findSome?_append,
    List.findSome?_singleton]
  rfl

theorem first?_forget (past : List Event) (function : String) (kind : Kind) (name : String) :
    first? (past ++ [.forget function]) kind name =
      if name = function then none else first? past kind name := by
  rw [first?, since_concat]
  by_cases hname : name = function
  · rw [if_pos hname, if_pos (by rw [hname])]
    rfl
  · have hne : Event.forget function ≠ .forget name := fun heq => hname (Event.forget.inj heq).symm
    rw [if_neg hname, if_neg hne, List.findSome?_append, List.findSome?_singleton, Event.asked?,
      Option.or_none]
    rfl

theorem asked?_eq_some {kind : Kind} {name : String} {e : Event} {f : Function} :
    e.asked? kind name = some f ↔ e = .request kind f ∧ f.name = name := by
  cases e with
  | forget function => simp [Event.asked?]
  | request kind' g =>
    rw [Event.asked?, Option.ite_none_right_eq_some]
    constructor
    · rintro ⟨⟨rfl, hname⟩, heq⟩
      cases heq
      exact ⟨rfl, hname⟩
    · rintro ⟨heq, hname⟩
      cases heq
      exact ⟨⟨rfl, hname⟩, rfl⟩

theorem exists_of_first? {past : List Event} {kind : Kind} {name : String} {f : Function}
    (h : first? past kind name = some f) : .request kind f ∈ since past name ∧ f.name = name := by
  obtain ⟨e, he, hasked⟩ := List.exists_of_findSome?_eq_some h
  obtain ⟨rfl, hname⟩ := asked?_eq_some.1 hasked
  exact ⟨he, hname⟩

theorem isSome_first? {past : List Event} {kind : Kind} {name : String} :
    (first? past kind name).isSome = true ↔
      ∃ f, .request kind f ∈ since past name ∧ f.name = name := by
  rw [Option.isSome_iff_exists]
  constructor
  · rintro ⟨f, hf⟩
    exact ⟨f, exists_of_first? hf⟩
  · rintro ⟨f, hmem, hname⟩
    have hsome : (first? past kind name).isSome = true := by
      rw [first?, List.findSome?_isSome_iff]
      exact ⟨_, hmem, Option.isSome_iff_exists.2 ⟨f, asked?_eq_some.2 ⟨rfl, hname⟩⟩⟩
    exact Option.isSome_iff_exists.1 hsome

theorem steady_append {past a b : List Event} :
    Steady past (a ++ b) ↔ Steady past a ∧ Steady (past ++ a) b := by
  induction a generalizing past with
  | nil => simp [Steady]
  | cons e a ih =>
    cases e with
    | request kind f =>
      rw [List.cons_append, Steady, Steady, ih, and_assoc, List.append_assoc, List.singleton_append]
    | forget function =>
      rw [List.cons_append, Steady, Steady, ih, List.append_assoc, List.singleton_append]

theorem misses_append (past a b : List Event) :
    misses past (a ++ b) = misses past a ++ misses (past ++ a) b := by
  induction a generalizing past with
  | nil => simp [misses]
  | cons e a ih =>
    cases e with
    | request kind f => simp [misses, ih]
    | forget function => simp [misses, ih]

/-- What is remembered for a request in a steady history is the function itself. -/
theorem Steady.first?_eq {past : List Event} {kind : Kind} {f g : Function} {rest : List Event}
    (h : Steady past (.request kind f :: rest))
    (hg : first? past kind f.name = some g) : g = f := by
  obtain ⟨hmem, hname⟩ := exists_of_first? hg
  exact h.1 g (List.mem_filterMap.2 ⟨_, hmem, rfl⟩) hname

/-! ## The memory agrees with the history -/

/-- Under a kind and a name stands the output for the function that was first asked about since the
name was last forgotten. -/
def Reflects (s : Session) (past : List Event) : Prop :=
  ∀ kind name, s.cache.lookup (kind, name) = (first? past kind name).map kind.analyze

variable {s : Session} {past : List Event}

theorem reflects_empty : empty.Reflects [] :=
  fun _ _ => rfl

/-- **What one request does.**  Where something is remembered it is the answer, and the session
stays as it is.  Otherwise the function is analyzed, and the output is recorded and filed. -/
theorem Reflects.request_cases (h : s.Reflects past) (kind : Kind) (f : Function) :
    (∃ g, first? past kind f.name = some g ∧ s.request (.ofKind kind) f = (kind.analyze g, s)) ∨
      (first? past kind f.name = none ∧ s.request (.ofKind kind) f =
        (kind.analyze f, (s.record (.ofKind kind) f (kind.analyze f)).file (.ofKind kind) f
          (kind.analyze f))) := by
  have hcached : s.cached? (.ofKind kind) f = (first? past kind f.name).map kind.analyze := by
    rw [cached?, Pass.filed_ofKind, Pass.analysis_ofKind, h kind f.name]
    cases first? past kind f.name with
    | none => rfl
    | some g => exact Option.filter_some_pos (kind.gives_analyze g)
  cases hfirst : first? past kind f.name with
  | some g =>
    refine Or.inl ⟨g, rfl, ?_⟩
    rw [request, hcached, hfirst]
    rfl
  | none =>
    refine Or.inr ⟨rfl, ?_⟩
    rw [request, hcached, hfirst]
    rfl

theorem cache_record (p : Pass) (f : Function) (output : Output) :
    (s.record p f output).cache = s.cache := by
  rw [record]
  split
  · rfl
  · rfl

theorem lookup_file (p : Pass) (f : Function) (output : Output) (kind : Kind) (name : String) :
    (s.file p f output).cache.lookup (kind, name) =
      if (kind, name) = (p.filed, f.name) then some output else s.cache.lookup (kind, name) := by
  by_cases hkey : (kind, name) = (p.filed, f.name)
  · rw [if_pos hkey, hkey]
    exact List.lookup_cons_self
  · have hbeq : ((kind, name) == (p.filed, f.name)) = false := beq_eq_false_iff_ne.2 hkey
    have hkept := lookup_filter_key (fun key => decide (key ≠ (p.filed, f.name))) s.cache
      (kind, name)
    rw [if_pos (decide_eq_true hkey)] at hkept
    rw [if_neg hkey, file, List.lookup_cons, hbeq]
    exact hkept

theorem lookup_invalidate (function : String) (kind : Kind) (name : String) :
    (s.invalidate function).cache.lookup (kind, name) =
      if name = function then none else s.cache.lookup (kind, name) := by
  show (s.cache.filter fun e => decide (e.1.2 ≠ function)).lookup (kind, name) = _
  rw [lookup_filter_key fun key : Kind × String => decide (key.2 ≠ function)]
  by_cases hname : name = function
  · simp [hname]
  · simp [hname]

/-- The session moves on along events: its memory keeps up with them, and where runs are recorded,
so is each request that nothing is remembered for. -/
structure Advances (s s' : Session) (past events : List Event) : Prop where
  reflects : s'.Reflects (past ++ events)
  recording : s.recording = true → s'.recording = true
  statistics : s.recording = true → s'.statistics =
    s.statistics ++ (misses past events).map freshRecord

theorem Advances.trans {s' s'' : Session} {a b : List Event} (h : s.Advances s' past a)
    (h' : s'.Advances s'' (past ++ a) b) : s.Advances s'' past (a ++ b) where
  reflects := by
    rw [← List.append_assoc]
    exact h'.reflects
  recording hs := h'.recording (h.recording hs)
  statistics hs := by
    rw [h'.statistics (h.recording hs), h.statistics hs, misses_append, List.map_append,
      List.append_assoc]

theorem Reflects.advances_refl (h : s.Reflects past) : s.Advances s past [] where
  reflects := by rwa [List.append_nil]
  recording := id
  statistics _ := by simp [misses]

theorem Reflects.request (h : s.Reflects past) (kind : Kind) (f : Function) :
    s.Advances (s.request (.ofKind kind) f).2 past [.request kind f] := by
  -- a hit leaves all as it was; a miss files one answer, under one key
  rcases h.request_cases kind f with ⟨g, hfirst, hrequest⟩ | ⟨hfirst, hrequest⟩
  · rw [hrequest]
    refine ⟨fun kind' name => ?_, id, fun _ => ?_⟩
    · rw [first?_request, h kind' name]
      by_cases hkey : kind = kind' ∧ f.name = name
      · obtain ⟨rfl, rfl⟩ := hkey
        rw [hfirst]
        rfl
      · rw [if_neg hkey, Option.or_none]
    · simp [misses, hfirst]
  · rw [hrequest]
    refine ⟨fun kind' name => ?_, fun hs => ?_, fun hs => ?_⟩
    · rw [lookup_file, cache_record, first?_request, h kind' name, Pass.filed_ofKind]
      by_cases hkey : kind = kind' ∧ f.name = name
      · obtain ⟨rfl, rfl⟩ := hkey
        rw [if_pos rfl, if_pos ⟨rfl, rfl⟩, hfirst]
        rfl
      · have hne : (kind', name) ≠ (kind, f.name) := fun heq =>
          hkey ⟨(congrArg Prod.fst heq).symm, (congrArg Prod.snd heq).symm⟩
        rw [if_neg hne, if_neg hkey, Option.or_none]
    · simp [file, record, hs]
    · simp [file, record, hs, misses, hfirst, freshRecord]

theorem Reflects.requestAll (h : s.Reflects past) (kind : Kind) (fs : List Function) :
    s.Advances (s.requestAll (.ofKind kind) fs).2 past (fs.map (.request kind)) := by
  induction fs generalizing s past with
  | nil => exact h.advances_refl
  | cons f fs ih =>
    have hstep := h.request kind f
    exact hstep.trans (ih hstep.reflects)

theorem Reflects.invalidate (h : s.Reflects past) (function : String) :
    s.Advances (s.invalidate function) past [.forget function] where
  reflects kind name := by
    rw [lookup_invalidate, first?_forget, h kind name]
    split
    · rfl
    · rfl
  recording := id
  statistics _ := by simp [Session.invalidate, misses]

theorem Reflects.perform (h : s.Reflects past) (call : Call) :
    s.Advances (s.perform call).2 past call.events := by
  cases call with
  | run kind f => exact h.request kind f
  | runModule kind m => exact h.requestAll kind m.functions.values
  | invalidate function => exact h.invalidate function
  | enableStatistics => exact ⟨h.advances_refl.reflects, fun _ => rfl, h.advances_refl.statistics⟩

/-- **The memory keeps up with every sequence of calls.** -/
theorem Reflects.performAll (h : s.Reflects past) (calls : List Call) :
    s.Advances (s.performAll calls).2 past (calls.flatMap Call.events) := by
  induction calls generalizing s past with
  | nil => exact h.advances_refl
  | cons call calls ih =>
    have hstep := h.perform call
    exact hstep.trans (ih hstep.reflects)

/-! ## Answers in a steady history -/

theorem Reflects.output_request (h : s.Reflects past) {kind : Kind} {f : Function}
    {rest : List Event} (hsteady : Steady past (.request kind f :: rest)) :
    (s.request (.ofKind kind) f).1 = kind.analyze f := by
  rcases h.request_cases kind f with ⟨g, hfirst, hrequest⟩ | ⟨-, hrequest⟩
  · rw [hrequest, hsteady.first?_eq hfirst]
  · rw [hrequest]

theorem Reflects.outputs_requestAll (h : s.Reflects past) {kind : Kind} {fs : List Function}
    (hsteady : Steady past (fs.map (.request kind))) :
    (s.requestAll (.ofKind kind) fs).1 = fs.map kind.analyze := by
  induction fs generalizing s past with
  | nil => rfl
  | cons f fs ih =>
    have hfirst := h.output_request hsteady
    have hrest := ih (h.request kind f).reflects hsteady.2
    exact congrArg₂ List.cons hfirst hrest

theorem Reflects.reply_perform (h : s.Reflects past) {call : Call}
    (hsteady : Steady past call.events) :
    (s.perform call).1 = call.fresh := by
  cases call with
  | run kind f => exact congrArg Reply.output (h.output_request hsteady)
  | runModule kind m =>
    have houtputs := h.outputs_requestAll hsteady
    refine congrArg Reply.outputs ?_
    show m.functions.keys.zip (s.requestAll (.ofKind kind) m.functions.values).1 = _
    rw [houtputs, Dict.keys, Dict.values, List.map_map, List.zip_map']
    rfl
  | invalidate function => rfl
  | enableStatistics => rfl

theorem Reflects.replies_performAll (h : s.Reflects past) {calls : List Call}
    (hsteady : Steady past (calls.flatMap Call.events)) :
    (s.performAll calls).1 = calls.map Call.fresh := by
  induction calls generalizing s past with
  | nil => rfl
  | cons call calls ih =>
    rw [List.flatMap_cons, steady_append] at hsteady
    have hfirst := h.reply_perform hsteady.1
    have hrest := ih (h.perform call).reflects hsteady.2
    exact congrArg₂ List.cons hfirst hrest

/-- **A session answers as if it remembered nothing**, if functions that change are forgotten.  A
kind is remembered for a name exactly if it was asked for since the name was last forgotten.  Where
runs are recorded from the start, there is one entry for each request that nothing was remembered
for, in order, about an analysis from scratch. -/
theorem performAll_transparent (calls : List Call) (h : Steady [] (calls.flatMap Call.events)) :
    (empty.performAll calls).1 = calls.map Call.fresh ∧
      (∀ kind name, (empty.performAll calls).2.isCached kind name = true ↔
        ∃ f, .request kind f ∈ since (calls.flatMap Call.events) name ∧ f.name = name) ∧
      (empty.performAll (.enableStatistics :: calls)).2.statistics =
        (misses [] (calls.flatMap Call.events)).map freshRecord := by
  refine ⟨reflects_empty.replies_performAll h, fun kind name => ?_, ?_⟩
  · have hreflects := (reflects_empty.performAll calls).reflects
    rw [isCached, hreflects kind name, Option.isSome_map, isSome_first?, List.nil_append]
  · have hstart : empty.enableStatistics.Reflects [] := reflects_empty
    exact (hstart.performAll calls).statistics rfl

/-- A function is asked about twice and in a module, changed, forgotten, and asked about again. -/
def changedCalls : List Call :=
  [.run .liveness .pointerLoop, .runModule .mayPointTo (.add .empty .pointerLoop),
    .run .liveness .pointerLoop, .invalidate "loop",
    .run .liveness { Function.pointerLoop with ret := .byte }]

theorem performAll_transparent_changedCalls :
    Steady [] (changedCalls.flatMap Call.events) ∧
      (empty.performAll changedCalls).1 = changedCalls.map Call.fresh ∧
      (empty.performAll changedCalls).2.isCached .liveness "loop" = true ∧
      (empty.performAll changedCalls).2.isCached .mayPointTo "loop" = false ∧
      (empty.performAll (.enableStatistics :: changedCalls)).2.statistics.map Statistic.name =
        ["liveness", "may-point-to", "liveness"] := by
  have hsteady : Steady [] (changedCalls.flatMap Call.events) := by decide +kernel
  obtain ⟨hreplies, hcached, hstatistics⟩ := performAll_transparent changedCalls hsteady
  refine ⟨hsteady, hreplies, ?_, ?_, ?_⟩
  · exact (hcached .liveness "loop").2 ⟨_, List.mem_singleton_self _, rfl⟩
  · rw [← Bool.not_eq_true, hcached .mayPointTo "loop"]
    rintro ⟨f, hf, -⟩
    exact Event.noConfusion (List.mem_singleton.1 hf) fun hkind => Kind.noConfusion hkind
  · rw [hstatistics]
    decide +kernel

end Session

end Dataflow
