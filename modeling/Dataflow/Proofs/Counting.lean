import Dataflow.Command.Basic
import Dataflow.Proofs.Modules
import Dataflow.Proofs.Sessions

/-!
# Counts as text and as data

Counts of functions are written in two ways.  As text every function has a section, module by
module, and the counts come out of a session.  As data the counts of all modules are put under the
names of their functions, without a session.  The session makes no difference, because a module has
no two functions of one name.  Names make one: where two modules have a function of one name, there
are two sections and one entry, with the counts of the later function.

* `Module.KeyedByName`: functions stand under their own names; `keyedByName_of_loadModules`: as they
  do in what is read.
* `steady_requests`, `requestModule_eq`: a session that starts with a module answers as if there
  were none.
* `countSections`: the wanted functions with their counts; `listedCounts_eq`, `mergedCounts_eq`:
  what the two ways make of them.
* `SortedMap.mem_entries_ofList`, `SortedMap.entries_ofList_perm`: what is kept of entries that are
  put in a map.
* `runCount_formats`: **there is one entry for each section exactly if no two modules have a wanted
  function of one name**, and otherwise the last section of a name counts.
* `sharedCounts_lost`: a section without an entry.
-/

namespace Dataflow

/-! ## Modules that were read -/

/-- Functions stand under their own names. -/
def Module.KeyedByName (m : Module) : Prop :=
  ∀ e ∈ m.functions.entries, e.2.name = e.1

theorem Module.KeyedByName.map_name {m : Module} (h : m.KeyedByName) :
    m.functions.values.map Function.name = m.functions.keys := by
  rw [Dict.values, List.map_map]
  exact List.map_congr_left h

theorem Source.keyedByName_of_readModule {text : String} {m : Module}
    (h : readModule text = .ok m) :
    m.KeyedByName := by
  obtain ⟨definitions, fs, -, hfs, rfl⟩ := exists_lowered_of_readModule h
  exact fun e he => (exists_last_of_mem_functions hfs he).1

theorem exists_text_of_loadModule {path : String} {content : Except FileError String} {m : Module}
    (h : loadModule path content = .ok m) :
    ∃ text, content = .ok text ∧ Source.readModule text = .ok m := by
  cases content with
  | error e => cases h
  | ok text =>
    cases hread : Source.readModule text with
    | error e => simp [loadModule, hread] at h
    | ok m' =>
      simp only [loadModule, hread, Except.ok.injEq] at h
      exact ⟨text, rfl, h ▸ hread⟩

theorem keyedByName_of_loadModules {inputs : Inputs} {modules : List Module}
    (h : loadModules inputs = .ok modules) {m : Module} (hm : m ∈ modules) : m.KeyedByName := by
  obtain ⟨input, -, hload⟩ := Source.exists_of_forall₂ (Source.mapM_eq_ok.1 h).flip hm
  obtain ⟨text, -, hread⟩ := exists_text_of_loadModule hload
  exact Source.keyedByName_of_readModule hread

/-! ## Sessions for one module -/

namespace Session

theorem mem_presented_of_since {past : List Event} {function : String} {f : Function}
    (h : f ∈ presented (since past function)) : f ∈ presented past := by
  obtain ⟨e, he, hf⟩ := List.mem_filterMap.1 h
  refine List.mem_filterMap.2 ⟨e, ?_, hf⟩
  exact List.mem_reverse.1 ((List.takeWhile_sublist _).mem (List.mem_reverse.1 he))

/-- Requests about functions with distinct names never meet the memory of another function. -/
theorem steady_requests (kind : Kind) {fs : List Function} {past : List Event}
    (hnodup : (fs.map Function.name).Nodup)
    (hpast : ∀ g ∈ presented past, g.name ∉ fs.map Function.name) :
    Steady past (fs.map (.request kind)) := by
  induction fs generalizing past with
  | nil => trivial
  | cons f fs ih =>
    rw [List.map_cons, List.nodup_cons] at hnodup
    refine ⟨fun g hg hname => ?_, ih hnodup.2 fun g hg => ?_⟩
    · exact absurd (hname ▸ List.mem_cons_self) (hpast g (mem_presented_of_since hg))
    · rw [presented, List.filterMap_append, List.mem_append] at hg
      rcases hg with hg | hg
      · exact fun hmem => hpast g hg (List.mem_cons_of_mem _ hmem)
      · obtain rfl : g = f := by simpa using hg
        exact hnodup.1

/-- **A session that starts with a module answers as if there were none.** -/
theorem requestModule_eq {m : Module} (h : m.KeyedByName) (kind : Kind) :
    (empty.requestModule (.ofKind kind) m).1 = (Pass.ofKind kind).analyzeModule m := by
  have hnodup : (m.functions.values.map Function.name).Nodup := h.map_name ▸ m.functions.nodup
  have hsteady : Steady [] (Call.runModule kind m).events :=
    steady_requests kind hnodup fun g hg => nomatch hg
  exact Reply.outputs.inj (reflects_empty.reply_perform hsteady)

end Session

/-! ## Sections -/

/-- The wanted functions of each module in order, with their counts. -/
def countSections (filter : Option String) (modules : List Module) : List (String × Tally) :=
  modules.flatMap fun m =>
    (m.functions.entries.filter fun e => isWanted filter e.1).map fun e =>
      (e.1, Tally.ofFunction e.2)

theorem wantedTallies_analyzeModule (filter : Option String) (m : Module) :
    wantedTallies filter ((Pass.ofKind .counts).analyzeModule m) =
      (m.functions.entries.filter fun e => isWanted filter e.1).map fun e =>
        (e.1, Tally.ofFunction e.2) := by
  rw [wantedTallies, Pass.analyzeModule, List.filter_map, List.filterMap_map]
  exact congrFun (List.filterMap_eq_map
    (f := fun e : String × Function => (e.1, Tally.ofFunction e.2))) _

theorem listedCounts_eq {modules : List Module} (h : ∀ m ∈ modules, m.KeyedByName)
    (filter : Option String) :
    listedCounts filter modules = countSections filter modules := by
  refine List.flatMap_congr fun m hm => ?_
  rw [Session.requestModule_eq (h m hm), wantedTallies_analyzeModule]

theorem mergedCounts_eq (filter : Option String) (modules : List Module) :
    mergedCounts filter modules = .ofList (countSections filter modules) := by
  refine congrArg SortedMap.ofList (List.flatMap_congr fun m _ => ?_)
  exact wantedTallies_analyzeModule filter m

/-- The names of the sections. -/
theorem map_fst_countSections (filter : Option String) (modules : List Module) :
    (countSections filter modules).map Prod.fst = modules.flatMap fun m =>
      m.functions.keys.filter (isWanted filter) := by
  rw [countSections, List.map_flatMap]
  refine List.flatMap_congr fun m _ => ?_
  rw [Dict.keys, List.filter_map, List.map_map]
  rfl

/-- No two modules have a wanted function of one name. -/
def NamesApart (filter : Option String) (modules : List Module) : Prop :=
  modules.Pairwise fun m m' => ∀ name ∈ m.functions.keys,
    isWanted filter name = true → name ∉ m'.functions.keys

theorem nodup_countSections {filter : Option String} {modules : List Module} :
    ((countSections filter modules).map Prod.fst).Nodup ↔ NamesApart filter modules := by
  have hkeys : ∀ m ∈ modules, (m.functions.keys.filter (isWanted filter)).Nodup :=
    fun m _ => m.functions.nodup.filter _
  rw [map_fst_countSections, List.nodup_flatMap, and_iff_right hkeys]
  refine List.Pairwise.iff fun m m' => ?_
  simp only [Function.onFun, List.disjoint_left, List.mem_filter, not_and]
  constructor
  · exact fun h name hname hwanted hname' => h ⟨hname, hwanted⟩ hname' hwanted
  · exact fun h name hname hname' _ => h name hname.1 hname.2 hname'

/-! ## Selections -/

/-- The name that is asked for is that of some function. -/
def Matched (filter : Option String) (modules : List Module) : Prop :=
  ∀ name, filter = some name → ∃ m ∈ modules, name ∈ m.functions.keys

theorem wantedFunctions_eq_nil {m : Module} (h : m.KeyedByName) {name : String} :
    wantedFunctions (some name) m = [] ↔ name ∉ m.functions.keys := by
  rw [wantedFunctions, List.filter_eq_nil_iff, ← h.map_name]
  simp [isWanted]

theorem selectFunctions_of_matched {filter : Option String} {modules : List Module}
    (h : ∀ m ∈ modules, m.KeyedByName) (hmatched : Matched filter modules) :
    ∃ groups, selectFunctions filter modules = .ok groups := by
  cases filter with
  | none => exact ⟨_, rfl⟩
  | some name =>
    obtain ⟨m, hm, hname⟩ := hmatched name rfl
    refine ⟨_, if_neg fun hall => ?_⟩
    have hempty := List.all_eq_true.1 hall _ (List.mem_map_of_mem hm)
    exact (wantedFunctions_eq_nil (h m hm)).1 (List.isEmpty_iff.1 hempty) hname

theorem selectFunctions_of_not_matched {filter : Option String} {modules : List Module}
    (h : ∀ m ∈ modules, m.KeyedByName) (hmatched : ¬ Matched filter modules) :
    ∃ name, filter = some name ∧ selectFunctions filter modules =
      .error ⟨"No function named @" ++ name, []⟩ := by
  simp only [Matched, not_forall, not_exists, not_and] at hmatched
  obtain ⟨name, rfl, hnone⟩ := hmatched
  refine ⟨name, rfl, if_pos (List.all_eq_true.2 fun group hgroup => ?_)⟩
  obtain ⟨m, hm, rfl⟩ := List.mem_map.1 hgroup
  exact List.isEmpty_iff.2 ((wantedFunctions_eq_nil (h m hm)).2 (hnone m hm))

/-! ## Entries of a map -/

namespace SortedMap

variable {κ ν : Type} [KeyOrder κ] [DecidableEq κ]

/-- **Of the entries for one key the last is kept.** -/
theorem mem_entries_ofList {l : List (κ × ν)} {k : κ} {v : ν} :
    (k, v) ∈ (ofList l).entries ↔ ∃ before after,
      l = before ++ (k, v) :: after ∧ k ∉ after.map Prod.fst := by
  rw [mem_entries_iff, get?_ofList, lookup_reverse_eq_some]

/-- All entries are kept exactly if no key comes up twice. -/
theorem entries_ofList_perm {l : List (κ × ν)} :
    (ofList l).entries.Perm l ↔ (l.map Prod.fst).Nodup := by
  constructor
  · intro hperm
    exact (hperm.map Prod.fst).nodup_iff.1 (ofList l).nodup_keys
  · intro hnodup
    have hreverse : (l.reverse.map Prod.fst).Nodup := by rwa [List.map_reverse, List.nodup_reverse]
    refine (List.perm_ext_iff_of_nodup (ofList l).nodup_keys.of_map hnodup.of_map).2 fun e => ?_
    rw [mem_entries_iff, get?_ofList, ← mem_iff_lookup hreverse, List.mem_reverse]

end SortedMap

/-! ## Both formats -/

/-- **Both formats tell of the same functions exactly if no two modules have a wanted function of
one name.**  The text has a section for each wanted function, with its counts.  The data have one
entry for each name, with the counts of the last section of that name.  If no function has the name
that is asked for, both fail alike. -/
theorem runCount_formats {inputs : Inputs} {modules : List Module}
    (hload : loadModules inputs = .ok modules) (filter : Option String) :
    (¬ Matched filter modules → ∃ failure, ∀ json, runCount inputs filter json = .error failure) ∧
    (Matched filter modules →
      runCount inputs filter false = .ok (separated ((countSections filter modules).map fun e =>
        e.2.namedReport .plain (.new false) e.1)) ∧
      ∃ entries : List (String × Tally),
        runCount inputs filter true =
          .ok (Json.obj (entries.map fun e => (e.1, e.2.toJson))).document ∧
        (entries.map Prod.fst).Nodup ∧
        (∀ name tally, (name, tally) ∈ entries ↔ ∃ before after,
          countSections filter modules = before ++ (name, tally) :: after ∧
            name ∉ after.map Prod.fst) ∧
        (entries.Perm (countSections filter modules) ↔ NamesApart filter modules)) := by
  have hkeyed : ∀ m ∈ modules, m.KeyedByName := fun m => keyedByName_of_loadModules hload
  constructor
  · intro hmatched
    obtain ⟨name, -, hselect⟩ := selectFunctions_of_not_matched hkeyed hmatched
    refine ⟨⟨"No function named @" ++ name, []⟩, fun json => ?_⟩
    rw [runCount, hload]
    simp only [bind, Except.bind, hselect]
  · intro hmatched
    obtain ⟨groups, hselect⟩ := selectFunctions_of_matched hkeyed hmatched
    -- after the selection the formats differ only in what they do with the counts
    have hrun : ∀ json, runCount inputs filter json = .ok (if json then
        (Json.obj ((mergedCounts filter modules).entries.map fun e => (e.1, e.2.toJson))).document
        else separated ((listedCounts filter modules).map fun e =>
          e.2.namedReport .plain (.new false) e.1)) := by
      intro json
      rw [runCount, hload]
      cases json <;> simp [bind, Except.bind, hselect, pure, Except.pure]
    refine ⟨?_, (mergedCounts filter modules).entries, ?_,
      (mergedCounts filter modules).nodup_keys, ?_, ?_⟩
    · rw [hrun false, listedCounts_eq hkeyed]
      rfl
    · rw [hrun true]
      rfl
    · intro name tally
      rw [mergedCounts_eq, SortedMap.mem_entries_ofList]
    · rw [mergedCounts_eq, SortedMap.entries_ofList_perm, nodup_countSections]

/-- Two texts with a function of one name each. -/
def sharedName : Inputs :=
  [("a.ll", .ok "define void @f() \x7b\n  ret void\n\x7d\n"),
    ("b.ll", .ok "define void @f() \x7b\n  unreachable\n\x7d\n")]

theorem runCount_formats_sharedName :
    ∃ modules, loadModules sharedName = .ok modules ∧ Matched (some "f") modules ∧
      runCount sharedName (some "f") false =
        .ok (separated ((countSections (some "f") modules).map fun e =>
          e.2.namedReport .plain (.new false) e.1)) ∧
      ∃ entries : List (String × Tally),
        runCount sharedName (some "f") true =
          .ok (Json.obj (entries.map fun e => (e.1, e.2.toJson))).document ∧
        ¬ entries.Perm (countSections (some "f") modules) := by
  have hkeys : ((loadModules sharedName).toOption.map fun modules =>
      modules.map fun m => m.functions.keys) =
      some [["f"], ["f"]] := by decide +kernel
  obtain ⟨modules, hload, hkeys⟩ := Option.map_eq_some_iff.1 hkeys
  have hload : loadModules sharedName = .ok modules := Source.toOption_eq_some.1 hload
  obtain ⟨m, rest, rfl, hm, hrest⟩ := List.map_eq_cons_iff.1 hkeys
  obtain ⟨m', _, rfl, hm', hnil⟩ := List.map_eq_cons_iff.1 hrest
  obtain rfl := List.map_eq_nil_iff.1 hnil
  have hmatched : Matched (some "f") [m, m'] := by
    rintro name ⟨⟩
    exact ⟨m, List.mem_cons_self, hm ▸ List.mem_singleton_self "f"⟩
  have hshared : ¬ NamesApart (some "f") [m, m'] := by
    intro hapart
    have hnot := (List.pairwise_cons.1 hapart).1 m' List.mem_cons_self "f"
      (hm ▸ List.mem_singleton_self "f") rfl
    exact hnot (hm' ▸ List.mem_singleton_self "f")
  obtain ⟨htext, entries, hjson, -, -, hperm⟩ := (runCount_formats hload (some "f")).2 hmatched
  exact ⟨_, hload, hmatched, htext, entries, hjson, mt hperm.1 hshared⟩

/-- Of two functions with one name the text has both, and the data only the later. -/
theorem sharedCounts_lost :
    runCount sharedName none false = .ok
      "=== count @f ===\nret\t1\n\n=== count @f ===\nunreachable\t1\n" ∧
      runCount sharedName none true = .ok
        "\x7b\n  \"f\": \x7b\n    \"unreachable\": 1\n  \x7d\n\x7d\n" := by
  exact ⟨by decide +kernel, by decide +kernel⟩

end Dataflow
