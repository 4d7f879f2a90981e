import Dataflow.Proofs.Linking
import Dataflow.Proofs.Regularity
import Dataflow.SortedMap

/-!
# Functions of a module

A module keeps its functions under their names.  The names stand in the order in which they first
come up, and a function that comes under a name again takes the place of the earlier one.  So
nothing is lost of a text whose definitions have distinct names, and of any other text something is.

* `Dict.keys_ofList`, `Dict.mem_entries_ofList`: the first entry under a key fixes its place, the
  last one its value.
* `functions_foldl_add`: a module is the dictionary of its functions under their names.
* `readModule_definitions`: **each name of the text has the function of its last definition**, in
  the order of the first definitions, and there is a function for each definition exactly if no name
  comes up twice.
* `readModule_repeatedName`: a definition that leaves no trace.
-/

namespace Dataflow

/-! ## Entries set one after another -/

/-- From the end of a list, the last entry under a key is found first. -/
theorem lookup_reverse_eq_some {κ ν : Type} [DecidableEq κ] {l : List (κ × ν)} {k : κ} {v : ν} :
    l.reverse.lookup k = some v ↔ ∃ before after,
      l = before ++ (k, v) :: after ∧ k ∉ after.map Prod.fst := by
  rw [List.lookup_eq_some_iff]
  constructor
  · rintro ⟨after, before, hsplit, hafter⟩
    refine ⟨before.reverse, after.reverse, ?_, ?_⟩
    · rw [← List.reverse_reverse l, hsplit]
      simp
    · intro hmem
      obtain ⟨e, he, rfl⟩ := List.mem_map.1 hmem
      have hne := hafter e (List.mem_reverse.1 he)
      simp at hne
  · rintro ⟨before, after, rfl, hafter⟩
    refine ⟨after.reverse, before.reverse, by simp, fun e he => bne_iff_ne.2 ?_⟩
    rintro rfl
    exact hafter (List.mem_map_of_mem (List.mem_reverse.1 he))

namespace Dict

variable {κ ν : Type} [DecidableEq κ]

theorem map_fst_insertList {k : κ} {v : ν} {l : List (κ × ν)} :
    (insertList k v l).map Prod.fst = appendNew (l.map Prod.fst) k := by
  induction l with
  | nil => rfl
  | cons e l ih =>
    obtain ⟨k', v'⟩ := e
    by_cases hk : k' = k
    · simp [insertList, appendNew, hk]
    · have hk' : k ≠ k' := Ne.symm hk
      by_cases hmem : k ∈ l.map Prod.fst
      · rw [appendNew, if_pos hmem] at ih
        simp only [insertList, hk, if_false, List.map_cons, ih]
        rw [appendNew, if_pos (List.mem_cons_of_mem _ hmem)]
      · rw [appendNew, if_neg hmem] at ih
        have hcons : k ∉ k' :: l.map Prod.fst := List.not_mem_cons_of_ne_of_not_mem hk' hmem
        simp only [insertList, hk, if_false, List.map_cons, ih]
        rw [appendNew, if_neg hcons, List.cons_append]

theorem keys_insert {d : Dict κ ν} {k : κ} {v : ν} : (d.insert k v).keys = appendNew d.keys k :=
  map_fst_insertList

theorem ofList_concat (l : List (κ × ν)) (e : κ × ν) :
    ofList (l ++ [e]) = (ofList l).insert e.1 e.2 := by
  rw [ofList, List.foldl_append]
  rfl

/-- **The first entry under a key fixes its place.** -/
theorem keys_ofList (l : List (κ × ν)) : (ofList l).keys = (l.map Prod.fst).eraseDups := by
  induction l using List.reverseRecOn with
  | nil => rfl
  | append_singleton l e ih =>
    rw [ofList_concat, keys_insert, ih, List.map_append, List.map_singleton, eraseDups_concat]

theorem get?_ofList (l : List (κ × ν)) (k : κ) : (ofList l).get? k = l.reverse.lookup k := by
  induction l using List.reverseRecOn with
  | nil => rfl
  | append_singleton l e ih =>
    rw [ofList_concat, get?_insert, ih, List.reverse_append, List.reverse_singleton,
      List.singleton_append, lookup_cons_eq]

/-- **The last entry under a key fixes its value.** -/
theorem mem_entries_ofList {l : List (κ × ν)} {k : κ} {v : ν} (h : (k, v) ∈ (ofList l).entries) :
    ∃ before after, l = before ++ (k, v) :: after ∧ k ∉ after.map Prod.fst := by
  have hget : l.reverse.lookup k = some v := by rw [← get?_ofList, get?_of_mem h]
  exact lookup_reverse_eq_some.1 hget

end Dict

end Dataflow

namespace Dataflow.Source

/-! ## Modules of a text -/

theorem functions_foldl_add (fs : List Function) :
    (fs.foldl Module.add .empty).functions = Dict.ofList (fs.map fun f => (f.name, f)) := by
  induction fs using List.reverseRecOn with
  | nil => rfl
  | append_singleton fs f ih =>
    rw [List.map_append, List.map_singleton, Dict.ofList_concat, ← ih, List.foldl_append]
    rfl

theorem name_of_lowerDefinition {d : Definition} {f : Function} (h : lowerDefinition d = .ok f) :
    f.name = d.name :=
  name_of_lowerFunction (lowerDefinition_eq_ok.1 h)

/-- Where two lists agree item by item, a split of one is a split of the other. -/
theorem exists_split_of_forall₂ {α β : Type} {R : α → β → Prop} {as : List α}
    {before after : List β} {b : β} (h : List.Forall₂ R as (before ++ b :: after)) :
    ∃ before' a after', as = before' ++ a :: after' ∧ R a b ∧ List.Forall₂ R after' after := by
  have hdrop := List.forall₂_drop_append as before (b :: after) h
  obtain ⟨a, after', hab, hafter, heq⟩ := List.forall₂_cons_right_iff.1 hdrop
  refine ⟨as.take before.length, a, after', ?_, hab, hafter⟩
  rw [← heq, List.take_append_drop]

section

variable {definitions : List Definition} {fs : List Function}

theorem map_name_of_forall₂
    (h : List.Forall₂ (fun d f => lowerDefinition d = .ok f) definitions fs) :
    fs.map Function.name = definitions.map Definition.name :=
  map_eq_of_forall₂ h fun _ _ hf => name_of_lowerDefinition hf

theorem map_fst_of_forall₂
    (h : List.Forall₂ (fun d f => lowerDefinition d = .ok f) definitions fs) :
    (fs.map fun f => (f.name, f)).map Prod.fst = definitions.map Definition.name := by
  rw [List.map_map, ← map_name_of_forall₂ h]
  rfl

/-- What stands under a name is the function of the last definition of that name. -/
theorem exists_last_of_mem_functions
    (h : List.Forall₂ (fun d f => lowerDefinition d = .ok f) definitions fs)
    {name : String} {f : Function}
    (hf : (name, f) ∈ (fs.foldl Module.add .empty).functions.entries) :
    f.name = name ∧ ∃ before d after, definitions = before ++ d :: after ∧ d.name = name ∧
      lowerDefinition d = .ok f ∧
      name ∉ after.map Definition.name := by
  rw [functions_foldl_add] at hf
  obtain ⟨before, after, hsplit, hlast⟩ := Dict.mem_entries_ofList hf
  obtain ⟨before', rest, rfl, -, hrest⟩ := List.map_eq_append_iff.1 hsplit
  obtain ⟨f', after', rfl, hf', hafter⟩ := List.map_eq_cons_iff.1 hrest
  obtain ⟨rfl, rfl⟩ := Prod.mk.inj hf'
  obtain ⟨ds, d, ds', rfl, hd, hds'⟩ := exists_split_of_forall₂ h
  refine ⟨rfl, ds, d, ds', rfl, (name_of_lowerDefinition hd).symm, hd, ?_⟩
  rwa [← hafter, map_fst_of_forall₂ hds'] at hlast

/-- Every definition has its function exactly if no name comes up twice. -/
theorem forall₂_values_iff
    (h : List.Forall₂ (fun d f => lowerDefinition d = .ok f) definitions fs) :
    List.Forall₂ (fun d f => lowerDefinition d = .ok f) definitions
      (fs.foldl Module.add .empty).functions.values ↔
      (definitions.map Definition.name).Nodup := by
  constructor
  · intro hall
    have hkeys : (fs.foldl Module.add .empty).functions.values.map Function.name =
        (fs.foldl Module.add .empty).functions.keys := by
      rw [Dict.values, List.map_map]
      exact List.map_congr_left fun e he => (exists_last_of_mem_functions h he).1
    rw [← map_name_of_forall₂ hall, hkeys]
    exact (fs.foldl Module.add .empty).functions.nodup
  · intro hnodup
    -- with distinct names nothing is replaced
    have hvalues : (fs.foldl Module.add .empty).functions.values = fs := by
      rw [functions_foldl_add, Dict.values, Dict.entries_ofList (by rwa [map_fst_of_forall₂ h]),
        List.map_map]
      exact List.map_id _
    rwa [hvalues]

end

/-- **Each name of a text has the function of its last definition**, in the order of the first
definitions.  There is a function for each definition, in order, exactly if no name comes up
twice. -/
theorem readModule_definitions {text : String} {m : Module} (h : readModule text = .ok m) :
    ∃ definitions, readProgram? text = some definitions ∧
      m.functions.keys = (definitions.map Definition.name).eraseDups ∧
      (∀ name f, (name, f) ∈ m.functions.entries → f.name = name ∧
        ∃ before d after, definitions = before ++ d :: after ∧ d.name = name ∧
          lowerDefinition d = .ok f ∧
          name ∉ after.map Definition.name) ∧
      (List.Forall₂ (fun d f => lowerDefinition d = .ok f) definitions m.functions.values ↔
        (definitions.map Definition.name).Nodup) := by
  obtain ⟨definitions, fs, hprogram, hfs, rfl⟩ := exists_lowered_of_readModule h
  refine ⟨definitions, hprogram, ?_, fun name f hf => exists_last_of_mem_functions hfs hf,
    forall₂_values_iff hfs⟩
  rw [functions_foldl_add, Dict.keys_ofList, map_fst_of_forall₂ hfs]

/-- Three definitions, the first and the last of one name. -/
def repeatedName : String :=
  "define void @f() \x7b\n  ret void\n\x7d\n" ++
  "define void @g() \x7b\n  ret void\n\x7d\n" ++
  "define void @f() \x7b\n  unreachable\n\x7d\n"

theorem readModule_definitions_repeatedName :
    ∃ m definitions, readModule repeatedName = .ok m ∧
      readProgram? repeatedName = some definitions ∧
      m.functions.keys = (definitions.map Definition.name).eraseDups ∧
      ∀ name f, (name, f) ∈ m.functions.entries →
        ∃ before d after, definitions = before ++ d :: after ∧
        d.name = name ∧ lowerDefinition d = .ok f ∧ name ∉ after.map Definition.name := by
  have hread : (readModule repeatedName).toOption.isSome = true := by decide +kernel
  obtain ⟨m, hm⟩ := Option.isSome_iff_exists.1 hread
  have hm : readModule repeatedName = .ok m := toOption_eq_some.1 hm
  obtain ⟨definitions, hprogram, hkeys, hentries, -⟩ := readModule_definitions hm
  exact ⟨m, definitions, hm, hprogram, hkeys, fun name f hf => (hentries name f hf).2⟩

/-- The text has three definitions and its module two functions.  The first definition is gone: its
name stands first still, with the body of the last one. -/
theorem readModule_repeatedName :
    (readProgram? repeatedName).map (fun definitions => definitions.map Definition.name) =
      some ["f", "g", "f"] ∧
      (readModule repeatedName).toOption.map (fun m => m.functions.entries.map fun e =>
        (e.1, e.2.instructions.map Instruction.opcode)) =
          some [("f", [.unreachable]), ("g", [.ret])] := by
  exact ⟨by decide +kernel, by decide +kernel⟩

end Dataflow.Source
