import Dataflow.Proofs.PhiPairs
import Dataflow.Proofs.PhiUses
import Dataflow.Proofs.Reachability

/-!
# Definitions before uses

An instruction dominates another if every path from the entry to the other passes it.  Where the
definition of a result dominates all its uses, a path to a use has passed the definition, and there
liveness takes the result away.  So nothing is live where the function is entered.

* `Graph.Dominates`, `Graph.StrictlyDominates`: dominance, by paths.
* `Graph.dominates_of_closed`: dominance from a set of nodes that can be left through one
  instruction only.
* `Function.DefinesBeforeUse`: every definition dominates its uses, and is one that liveness knows.
* `Liveness.UsePath.isChain`: a path to a use, as a list of nodes that the entry leads to.
* `Liveness.UsePath.exists_of_dominates`, `exists_kills`: it passes what dominates a place on it, so
  it passes the definition before the use.
* `finish_nothingLive`: **nothing is live on entry.**
-/

namespace Dataflow

/-! ## Dominance -/

namespace Graph

variable {g : Graph}

/-- Every path from outside to the second instruction passes the first. -/
def Dominates (g : Graph) (index target : Nat) : Prop :=
  ∀ path : List Node, List.IsChain g.Links (.entry :: path) → path.getLast? = some (.inst target) →
    .inst index ∈ path

/-- Every path from outside to the second instruction passes the first, which is another one. -/
def StrictlyDominates (g : Graph) (index target : Nat) : Prop :=
  index ≠ target ∧ g.Dominates index target

/-- A path stays in a set of nodes until it comes to the only instruction through which that set can
be left. -/
theorem mem_of_isChain {index : Nat} {nodes : List Node}
    (hclosed : ∀ e ∈ g.edges, e.src ∈ nodes → e.dst ∈ nodes ∨ e.dst = .inst index)
    {node last : Node} {path : List Node} (hnode : node ∈ nodes)
    (hpath : List.IsChain g.Links (node :: path)) (havoids : .inst index ∉ path)
    (hlast : path.getLast? = some last) : last ∈ nodes := by
  induction path generalizing node with
  | nil => simp at hlast
  | cons next path ih =>
    rw [List.isChain_cons_cons] at hpath
    rw [List.mem_cons, not_or] at havoids
    have hnext : next ∈ nodes := by
      rcases hclosed _ hpath.1 hnode with h | h
      · exact h
      · exact absurd h.symm havoids.1
    cases path with
    | nil =>
      cases hlast
      exact hnext
    | cons after path =>
      rw [List.getLast?_cons_cons] at hlast
      exact ih hnext hpath.2 havoids.2 hlast

/-- What lies outside a set of nodes around the entry is dominated by the only instruction through
which that set can be left. -/
theorem dominates_of_closed {index target : Nat} (nodes : List Node) (hentry : .entry ∈ nodes)
    (hclosed : ∀ e ∈ g.edges, e.src ∈ nodes → e.dst ∈ nodes ∨ e.dst = .inst index)
    (htarget : .inst target ∉ nodes) : g.Dominates index target := by
  intro path hpath hlast
  by_contra havoids
  exact htarget (mem_of_isChain hclosed hentry hpath havoids hlast)

end Graph

/-! ## Definitions and uses -/

/-- Every result is defined before it is used.  An operand of a reachable instruction other than a
phi is defined by another instruction that dominates it.  A value that a phi takes from a reachable
block which branches to its own is defined by an instruction that dominates the end of that block.
What is used is the result of a phi, or one of those that liveness takes away where they are
defined; casts and calls are not among them. -/
structure Function.DefinesBeforeUse (f : Function) : Prop where
  operands : ∀ {index x : Nat} {inst : Instruction} {operand : Operand},
    (Graph.build f .forward).Reaches index →
    (Graph.build f .forward).instruction? index = some inst → inst.isPhi = false →
      operand ∈ inst.operands →
      (Graph.build f .forward).operandIndex? operand = some x →
        (Graph.build f .forward).StrictlyDominates x index
  incoming : ∀ {index far x : Nat} {phi last : Site} {value : Operand},
    (Graph.build f .forward).site? index = some phi → phi.inst.isPhi = true →
      (Graph.build f .forward).site? far = some last → last.inst.isTerminator = true →
      (Graph.build f .forward).Reaches far → last.block ∈ f.predecessorsOf phi.block →
      (value, last.block) ∈ phi.inst.incoming →
        (Graph.build f .forward).operandIndex? value = some x →
        (Graph.build f .forward).Dominates x far
  results : ∀ {index x : Nat} {inst used : Instruction} {operand : Operand},
    (Graph.build f .forward).instruction? index = some inst → operand ∈ inst.operands →
      (Graph.build f .forward).operandIndex? operand = some x →
        (Graph.build f .forward).instruction? x = some used →
        LiveCategory.classify used.opcode = .valueProducing ∨ used.isPhi = true

namespace Function

variable {f : Function}

/-- Execution that comes from a terminator has left its block along a branch. -/
theorem Complete.mem_predecessorsOf_of_step (h : f.Complete) {far index : Nat} {last site : Site}
    (hstep : f.Step ⟨.inst far, .inst index⟩)
    (hlast : (Graph.build f .backward).site? far = some last)
    (hterminator : last.inst.isTerminator = true)
    (hsite : (Graph.build f .backward).site? index = some site) :
    last.block ∈ f.predecessorsOf site.block := by
  cases hstep with
  | @next _ _ start position hstarts hnext =>
    have hdst : .inst (start + position) ∈
        (Graph.build f .backward).outgoing (start + position + 1) :=
      Graph.mem_outgoing_backward.2 (.next hstarts hnext)
    -- inside a block nothing comes from a terminator
    have hnone := h.originOf?_inner hstarts hnext hdst
    rw [Liveness.originOf?_eq_some.2 ⟨_, _, rfl, hlast, hterminator, rfl⟩] at hnone
    cases hnone
  | branch hstarts hne htarget hstarts' hne' =>
    have hpos := List.length_pos_iff.2 hne
    have hfar := holds_of_site hlast
    rw [Nat.add_sub_assoc hpos] at hfar
    rw [hfar.unique (hstarts.holds (by omega)),
      (holds_of_site hsite).unique (hstarts'.holds (List.length_pos_iff.2 hne'))]
    exact mem_predecessorsOf.2 ⟨_, hstarts.mem, htarget⟩

end Function

/-! ## Paths to uses -/

namespace Liveness

variable {f : Function} {x first length : Nat} {via : Nat → Nat}

/-- A result that is defined before it is used is taken away where it is defined. -/
theorem kills_self (h : f.DefinesBeforeUse) {index : Nat} {inst : Instruction} {operand : Operand}
    (hinst : (Graph.build f .backward).instruction? index = some inst)
    (hoperand : operand ∈ inst.operands)
    (hx : (Graph.build f .backward).operandIndex? operand = some x) :
    Kills (Graph.build f .backward) x x := by
  have hlt := Graph.lt_size_of_operandIndex hx
  have hsite : (Graph.build f .backward).site? x = some (Graph.build f .backward).sites[x] :=
    List.getElem?_eq_getElem hlt
  have hused := Graph.instruction?_of_site hsite
  rcases h.results hinst hoperand hx hused with hcategory | hphi
  · exact .result hused hcategory
  · exact .phi hsite hphi hsite rfl hphi

namespace UsePath

/-- A path to a use goes forward along steps of execution. -/
theorem forward {before : Node} (h : UsePath (Graph.build f .backward) x first before length via)
    {j : Nat} (hj : j < length) : f.Step ⟨.inst (via j), .inst (via (j + 1))⟩ :=
  Graph.mem_outgoing_backward.1 (Graph.mem_outgoing.2 (Graph.mem_incoming.1 (h.step j hj)))

variable (h : UsePath (Graph.build f .backward) x first .exit length via)
  (hfirst : .exit ∈ (Graph.build f .backward).outgoing first)
include h hfirst

/-- Paths to uses from where the function is entered are paths from outside. -/
theorem isChain {n : Nat} (hn : n ≤ length) :
    List.IsChain (Graph.build f .forward).Links
      (.entry :: (List.range (n + 1)).map fun j => .inst (via j)) := by
  have henter : f.Step ⟨.entry, .inst (via 0)⟩ := h.start ▸ Graph.mem_outgoing_backward.1 hfirst
  rw [List.isChain_cons, List.isChain_map, List.isChain_range_succ]
  refine ⟨?_, fun j hj => Graph.mem_edges_forward.2 (h.forward (by omega))⟩
  intro node hnode
  rw [List.range_succ_eq_map, List.map_cons, List.head?_cons, Option.mem_some] at hnode
  rw [← hnode]
  exact Graph.mem_edges_forward.2 henter

theorem reaches {n : Nat} (hn : n ≤ length) : (Graph.build f .forward).Reaches (via n) := by
  induction n with
  | zero =>
    exact .single (Graph.mem_edges_forward.2 (h.start ▸ Graph.mem_outgoing_backward.1 hfirst))
  | succ n ih => exact (ih (by omega)).tail (Graph.mem_edges_forward.2 (h.forward (by omega)))

/-- **A path to a use passes what dominates a place on it**, at that place or before. -/
theorem exists_of_dominates {n y : Nat} (hn : n ≤ length)
    (hdominates : (Graph.build f .forward).Dominates y (via n)) :
    ∃ j ≤ n, via j = y := by
  have hmem := hdominates _ (h.isChain hfirst hn) (by simp [List.range_succ])
  obtain ⟨j, hj, heq⟩ := List.mem_map.1 hmem
  exact ⟨j, Nat.le_of_lt_succ (List.mem_range.1 hj), Node.inst.inj heq⟩

/-- **A path to a use passes the definition before it comes to the use**, where every result is
defined before it is used. -/
theorem exists_kills (hcomplete : f.Complete) (hdefines : f.DefinesBeforeUse) :
    ∃ j < length, Kills (Graph.build f .backward) (via j) x := by
  have hused := h.used
  generalize hbefore : cameFrom .exit via length = before at hused
  -- a definition that comes before every use lies on every path to one
  cases hused with
  | operand hinst hphi hoperand hx =>
    obtain ⟨hne, hdominates⟩ :=
      hdefines.operands (h.reaches hfirst (Nat.le_refl length)) hinst hphi hoperand hx
    obtain ⟨j, hj, rfl⟩ := h.exists_of_dominates hfirst (Nat.le_refl length) hdominates
    have hlt : j < length := Nat.lt_of_le_of_ne hj fun heq => hne (heq ▸ rfl)
    exact ⟨j, hlt, kills_self hdefines hinst hoperand hx⟩
  | taken hsite hphi hlast hterminator hother hblock hphi' hvalue hx =>
    cases length with
    | zero => cases hbefore
    | succ n =>
      cases hbefore
      -- the value is taken where the path left the other block, one step before the phi
      have hpredecessor :=
        hcomplete.mem_predecessorsOf_of_step (h.forward (Nat.lt_succ_self n)) hlast
          hterminator hsite
      rw [← hblock] at hpredecessor
      have hdominates := hdefines.incoming hother hphi' hlast hterminator
        (h.reaches hfirst (Nat.le_succ n))
        hpredecessor hvalue hx
      obtain ⟨j, hj, rfl⟩ := h.exists_of_dominates hfirst (Nat.le_succ n) hdominates
      exact ⟨j, Nat.lt_succ_of_le hj,
        kills_self hdefines (Graph.instruction?_of_site hother) (List.of_mem_zip hvalue).1 hx⟩

end UsePath

end Liveness

/-- **Nothing is live where the function is entered**, if every result is defined before it is used.
The edge that leaves the first instruction of the entry against execution is there, the solver
returns, and the fact that it leaves on this edge is empty. -/
theorem finish_nothingLive (d : Draft) (f : Function) (h : d.finish = .ok f)
    (hdefines : f.DefinesBeforeUse) :
    ∃ first, f.firstIndex? f.entry = some first ∧ .exit ∈ (Graph.build f .backward).outgoing first ∧
      (Engine.start Liveness.flow f).Returns (Engine.start Liveness.flow f).run ∧
      (Engine.start Liveness.flow f).solve.store.get ⟨.inst first, .exit⟩ = .empty := by
  obtain ⟨-, -, -, hblocks, hentry, hcomplete⟩ :=
    Function.assemble_eq_ok.1 (Draft.finish_eq_ok.1 h).2
  obtain ⟨⟨_, b⟩, hb, rfl⟩ := List.mem_map.1 (List.mem_of_mem_head? hentry)
  obtain ⟨first, hstarts⟩ := Function.exists_starts_of_mem (hblocks ▸ hb)
  have hne := hcomplete.ne_nil hstarts
  have hfirst : .exit ∈ (Graph.build f .backward).outgoing first :=
    Graph.mem_outgoing_backward.2 (.enter hstarts hne)
  refine ⟨first, Function.firstIndex?_iff.2 ⟨b, hstarts, hne⟩, hfirst, ?_, ?_⟩
  · exact (Liveness.bounded.gauge f).returns_run (Liveness.bounded.monotoneOn f)
  · refine SortedSet.ext fun x => ⟨fun hx => ?_, fun hx => absurd hx SortedSet.not_mem_empty⟩
    have hcarried := ((Liveness.genKillOn f .backward).mem_solve_iff rfl Liveness.bounded).1 hx
    obtain ⟨-, length, via, hpath⟩ := Liveness.carried_iff.1 hcarried
    obtain ⟨j, hj, hkills⟩ := hpath.exists_kills hfirst hcomplete hdefines
    exact absurd hkills (hpath.alive j hj)

/-- The function of the countdown. -/
def Function.countdown : Function :=
  History.function "f" .word History.countdown

/-- Up to the comparison of the countdown there is one way only. -/
theorem countdown_dominates {index target : Nat} (hindex : index < 4) (hle : index ≤ target) :
    (Graph.build .countdown .forward).Dominates index target := by
  have hclosed : ∀ index < 4, ∀ e ∈ (Graph.build .countdown .forward).edges,
      e.src ∈ .entry :: (List.range index).map Node.inst →
        e.dst ∈ .entry :: (List.range index).map Node.inst ∨ e.dst = .inst index := by
    decide +kernel
  refine Graph.dominates_of_closed _ List.mem_cons_self (hclosed index hindex) ?_
  simpa using hle

/-- What the countdown uses is computed further up, or comes around the loop. -/
theorem countdown_definesBeforeUse : Function.countdown.DefinesBeforeUse where
  operands := by
    have hcheck : ∀ e ∈ Function.countdown.sites.zipIdx,
        e.1.inst.isPhi = false → ∀ operand ∈ e.1.inst.operands,
        ∀ x ∈ ((Graph.build .countdown .forward).operandIndex? operand).toList,
          x < 4 ∧ x < e.2 := by decide +kernel
    intro index x inst operand _ hinst hphi hoperand hx
    obtain ⟨site, hsite, rfl⟩ := Graph.exists_site_of_instruction hinst
    obtain ⟨hlow, hlt⟩ := hcheck _ (List.mk_mem_zipIdx_iff_getElem?.2 hsite) hphi operand hoperand x
      (Option.mem_toList.2 hx)
    exact ⟨Nat.ne_of_lt hlt, countdown_dominates hlow (Nat.le_of_lt hlt)⟩
  incoming := by
    have hcheck : ∀ e ∈ Function.countdown.sites.zipIdx, e.1.inst.isPhi = true →
        ∀ e' ∈ Function.countdown.sites.zipIdx, e'.1.inst.isTerminator = true →
          ∀ pair ∈ e.1.inst.incoming, pair.2 = e'.1.block →
            ∀ x ∈ ((Graph.build .countdown .forward).operandIndex? pair.1).toList,
              x < 4 ∧ x ≤ e'.2 := by decide +kernel
    intro index far x phi last value hsite hphi hlast hterminator _ _ hvalue hx
    obtain ⟨hlow, hle⟩ := hcheck _ (List.mk_mem_zipIdx_iff_getElem?.2 hsite) hphi _
      (List.mk_mem_zipIdx_iff_getElem?.2 hlast) hterminator _ hvalue rfl x (Option.mem_toList.2 hx)
    exact countdown_dominates hlow hle
  results := by
    have hcheck : ∀ e ∈ Function.countdown.sites.zipIdx, ∀ operand ∈ e.1.inst.operands,
        ∀ x ∈ ((Graph.build .countdown .forward).operandIndex? operand).toList,
          ∀ used ∈ ((Graph.build .countdown .forward).instruction? x).toList,
            LiveCategory.classify used.opcode = .valueProducing ∨ used.isPhi = true := by
      decide +kernel
    intro index x inst used operand hinst hoperand hx hused
    obtain ⟨site, hsite, rfl⟩ := Graph.exists_site_of_instruction hinst
    exact hcheck _ (List.mk_mem_zipIdx_iff_getElem?.2 hsite) operand hoperand x
      (Option.mem_toList.2 hx) used
      (Option.mem_toList.2 hused)

/-- Nothing is live where the countdown is entered, although its phi takes what the loop computes
later. -/
theorem finish_nothingLive_countdown :
    ((Draft.start "f" .word).applyAll History.countdown).finish = .ok .countdown ∧
    Function.countdown.DefinesBeforeUse ∧
    (Engine.start Liveness.flow .countdown).solve.store.get ⟨.inst 0, .exit⟩ = .empty := by
  have hfinish : ((Draft.start "f" .word).applyAll History.countdown).finish = .ok .countdown := by
    decide +kernel
  have hindex : Function.countdown.firstIndex? Function.countdown.entry = some 0 := by
    decide +kernel
  obtain ⟨first, hfirst, -, -, hempty⟩ := finish_nothingLive _ _ hfinish countdown_definesBeforeUse
  rw [hindex, Option.some.injEq] at hfirst
  subst hfirst
  exact ⟨hfinish, countdown_definesBeforeUse, hempty⟩

end Dataflow
