import Dataflow.Proofs.LivenessPaths
import Dataflow.Proofs.Outlets

/-!
# Where the values of a phi are live

The values of a phi are used on the edges that enter its block.  Liveness puts them there when it
visits the first instruction of the block, and only if that one is a phi: on the way to any later
phi execution has not come from the end of a block.

* `Block.beginsWithPhi`: the first instruction is a phi.
* `Liveness.mem_solve_of_uses`: what an instruction uses on an edge is in the fact of that edge.
* `Function.Complete.no_uses_of_inner_phi`: a phi that is not the first instruction uses nothing.
* `finish_phiUses`: **a block that begins with a phi has all values of its phis live on the edges
  that they come along; if it begins otherwise, what is live there is used by something else.**
* `latePhi_dropped`: a finished draft with a value of a phi that is live nowhere.
-/

namespace Dataflow

/-- The first instruction of the block is a phi. -/
def Block.beginsWithPhi (b : Block) : Bool :=
  b.instructions.head?.any Instruction.isPhi

namespace Function

variable {f : Function} {key origin : BlockId} {b b' : Block} {start start' : Nat}

/-- The last instruction of a block, in its place. -/
theorem Complete.site?_last (h : f.Complete) (direction : Direction)
    (hstarts : f.Starts key b start) :
    ∃ site, (Graph.build f direction).site? (start + b.instructions.length - 1) = some site ∧
      site.block = key ∧
      site.inst.isTerminator = true := by
  obtain ⟨body, last, hbody, hterminator, -⟩ := h.closed b (List.mem_map.2 ⟨_, hstarts.mem, rfl⟩)
  have hplace : b.instructions[start + b.instructions.length - 1 - start]? = some last := by
    rw [Nat.add_sub_assoc (by simp [hbody]), Nat.add_sub_cancel_left, hbody]
    simp
  have hle : start ≤ start + b.instructions.length - 1 := by
    rw [hbody, List.length_append, List.length_singleton]
    omega
  obtain ⟨site, hsite, hblock, rfl⟩ := hstarts.site_iff.2 ⟨hle, hplace⟩
  exact ⟨site, hsite, hblock, hterminator⟩

/-- A value that a complete function uses has an index. -/
theorem Complete.exists_index (h : f.Complete) (direction : Direction) {i : Instruction}
    (hi : i ∈ f.instructions) {id : InstId} (hid : .inst id ∈ i.operands) :
    ∃ x, (Graph.build f direction).indexOf? id = some x := by
  obtain ⟨used, hused, rfl⟩ := h.operands i hi _ hid
  obtain ⟨b, hb, hplace⟩ := List.mem_flatMap.1 hused
  obtain ⟨⟨key, b⟩, hentry, rfl⟩ := List.mem_map.1 hb
  obtain ⟨start, hstarts⟩ := exists_starts_of_mem hentry
  obtain ⟨position, hposition⟩ := List.mem_iff_getElem?.1 hplace
  have hplace : b.instructions[start + position - start]? = some used := by
    rwa [Nat.add_sub_cancel_left]
  obtain ⟨site, hsite, -, rfl⟩ :
      ∃ site, (Graph.build f direction).site? (start + position) = some site ∧
        site.block = key ∧ site.inst = used :=
    hstarts.site_iff.2 ⟨Nat.le_add_right start position, hplace⟩
  simp only [Graph.indexOf?_eq_findIdx?]
  refine Option.isSome_iff_exists.1 (List.findIdx?_isSome.trans (List.any_eq_true.2 ⟨site, ?_, ?_⟩))
  · exact List.mem_of_getElem? hsite
  · exact decide_eq_true rfl

/-- Execution comes to the start of a block from the end of every block that branches to it. -/
theorem Complete.outgoing_of_predecessor (h : f.Complete) (hstarts : f.Starts key b start)
    (hstarts' : f.Starts origin b' start') (horigin : origin ∈ f.predecessorsOf key) :
    .inst (start' + b'.instructions.length - 1) ∈ (Graph.build f .backward).outgoing start := by
  obtain ⟨other, hother, htarget⟩ := mem_predecessorsOf.1 horigin
  obtain ⟨otherStart, hother⟩ := exists_starts_of_mem hother
  obtain ⟨rfl, -⟩ := hother.unique hstarts'
  exact Graph.mem_outgoing_backward.2
    (.branch hstarts' (h.ne_nil hstarts') htarget hstarts (h.ne_nil hstarts))

/-- Inside a block execution comes from the instruction before, which is no terminator. -/
theorem Complete.originOf?_inner (h : f.Complete) (hstarts : f.Starts key b start) {position : Nat}
    (hposition : position + 1 < b.instructions.length) {dst : Node}
    (hdst : dst ∈ (Graph.build f .backward).outgoing (start + (position + 1))) :
    Liveness.originOf? (Graph.build f .backward) dst = none := by
  obtain ⟨body, last, hbody, -, hinner⟩ := h.closed b (List.mem_map.2 ⟨_, hstarts.mem, rfl⟩)
  have hstep : f.Step ⟨dst.reversed, .inst (start + (position + 1))⟩ :=
    Graph.mem_outgoing_backward.1 hdst
  -- no branch goes into the middle of a block
  have hnotFirst : ∀ {key' : BlockId} {b' : Block} {first : Nat},
      f.Starts key' b' first → b'.instructions ≠ [] →
      start + (position + 1) ≠ first := by
    intro key' b' first hstarts' hne heq
    exact absurd (hstarts.place_unique hposition hstarts' (List.length_pos_iff.2 hne) heq).2
      (Nat.succ_ne_zero _)
  cases hnone : Liveness.originOf? (Graph.build f .backward) dst with
  | none => rfl
  | some origin =>
    obtain ⟨far, site, rfl, hsite, hterminator, -⟩ := Liveness.originOf?_eq_some.1 hnone
    generalize hindex : start + (position + 1) = index at hstep
    cases hstep with
    | branch hstarts' hne' htarget hstarts'' hne'' =>
      exact absurd hindex (hnotFirst hstarts'' hne'')
    | @next _ b' start' before hstarts' hnext =>
      obtain ⟨rfl, hposition'⟩ := hstarts.place_unique hposition hstarts' hnext hindex
      obtain ⟨rfl, rfl⟩ := hstarts'.unique hstarts
      obtain rfl : position = before := Nat.succ.inj hposition'
      -- the instruction before stands in the body, and only the last one is a terminator
      have hlt : position < body.length := by
        rw [hbody, List.length_append, List.length_singleton] at hposition
        omega
      have hplace : b'.instructions[position]? = some body[position] := by
        rw [hbody, List.getElem?_append_left hlt, List.getElem?_eq_getElem hlt]
      have hsite' : (Graph.build f .backward).site? (start' + position) =
          some ⟨key, position, body[position]⟩ :=
        Graph.site?_iff.2 ⟨b', start', hstarts, hplace, rfl⟩
      rw [hsite, Option.some.injEq] at hsite'
      rw [hsite', hinner _ (List.getElem_mem hlt)] at hterminator
      cases hterminator

/-- A phi inside a block uses nothing, wherever execution comes from. -/
theorem Complete.no_uses_of_inner_phi (h : f.Complete) (hstarts : f.Starts key b start)
    {index : Nat} {site : Site} (hsite : (Graph.build f .backward).site? index = some site)
    (hblock : site.block = key) (hphi : site.inst.isPhi = true) (hindex : index ≠ start)
    {dst : Node} (hdst : dst ∈ (Graph.build f .backward).outgoing index) (x : Nat) :
    ¬ Liveness.Uses (Graph.build f .backward) index dst x := by
  obtain ⟨hle, hplace⟩ := hstarts.site_iff.1 ⟨site, hsite, hblock, rfl⟩
  obtain ⟨position, rfl⟩ : ∃ position, index = start + (position + 1) :=
    ⟨index - start - 1, by omega⟩
  have hposition := (List.getElem?_eq_some_iff.1 hplace).1
  rw [Nat.add_sub_cancel_left] at hposition
  rw [Liveness.uses_iff hsite, h.originOf?_inner hstarts hposition hdst]
  simp [hphi]

end Function

namespace Liveness

variable {f : Function} {index x : Nat} {dst : Node}

/-- What an instruction uses on an edge is in the fact of that edge. -/
theorem mem_solve_of_uses (hdst : dst ∈ (Graph.build f .backward).outgoing index)
    (huses : Uses (Graph.build f .backward) index dst x) :
    x ∈ (Engine.start flow f).solve.store.get ⟨.inst index, dst⟩ := by
  refine ((genKillOn f .backward).mem_solve_iff rfl bounded).2
    (carried_iff.2 ⟨hdst, 0, fun _ => index, ?_⟩)
  exact ⟨rfl, fun j hj => absurd hj (Nat.not_lt_zero j),
    fun j hj => absurd hj (Nat.not_lt_zero j), huses⟩

/-- The node from which execution comes to the end of a path is one that it can come from. -/
theorem UsePath.mem_outgoing {g : Graph} {length : Nat} {via : Nat → Nat}
    (h : UsePath g x index dst length via) (hdst : dst ∈ g.outgoing index) :
    cameFrom dst via length ∈ g.outgoing (via length) := by
  cases length with
  | zero => exact h.start ▸ hdst
  | succ length =>
    exact Graph.mem_outgoing.2 (Graph.mem_incoming.1 (h.step length (Nat.lt_succ_self length)))

/-- A phi of the block stands at an index. -/
def PhiAt (g : Graph) (key : BlockId) (index : Nat) : Prop :=
  ∃ site, g.site? index = some site ∧ site.block = key ∧ site.inst.isPhi = true

variable {key origin : BlockId} {b b' : Block} {start start' : Nat}

theorem beginsWithPhi_iff (hstarts : f.Starts key b start) (direction : Direction) :
    b.beginsWithPhi = true ↔ PhiAt (Graph.build f direction) key start := by
  rw [Block.beginsWithPhi, Option.any_eq_true]
  constructor
  · rintro ⟨first, hfirst, hphi⟩
    have hplace : b.instructions[start - start]? = some first := by
      rwa [Nat.sub_self, ← List.head?_eq_getElem?]
    obtain ⟨site, hsite, hblock, rfl⟩ := hstarts.site_iff.2 ⟨Nat.le_refl start, hplace⟩
    exact ⟨site, hsite, hblock, hphi⟩
  · rintro ⟨site, hsite, hblock, hphi⟩
    obtain ⟨-, hplace⟩ := hstarts.site_iff.1 ⟨site, hsite, hblock, rfl⟩
    rw [Nat.sub_self, ← List.head?_eq_getElem?] at hplace
    exact ⟨site.inst, hplace, hphi⟩

/-- **Where a block begins with a phi, all its phis use their values on the way into it.** -/
theorem uses_of_beginsWithPhi (h : f.Complete) (hstarts : f.Starts key b start)
    (hfirst : b.beginsWithPhi = true) (hstarts' : f.Starts origin b' start') {phi : Instruction}
    (hphi : phi ∈ b.phis) {value : Operand} (hvalue : (value, origin) ∈ phi.incoming)
    (hx : (Graph.build f .backward).operandIndex? value = some x) :
    Uses (Graph.build f .backward) start (.inst (start' + b'.instructions.length - 1)) x := by
  obtain ⟨site, hsite, hblock, hsitePhi⟩ := (beginsWithPhi_iff hstarts .backward).1 hfirst
  obtain ⟨last, hlast, rfl, hterminator⟩ := h.site?_last .backward hstarts'
  obtain ⟨sibling, other, hother, hotherBlock, hotherPhi, rfl⟩ :=
    (mem_phis .backward hstarts).1 hphi
  exact .taken hsite hsitePhi hlast hterminator hother (hotherBlock.trans hblock.symm) hotherPhi
    hvalue hx

/-- **Where a block begins otherwise, what is live on the way into it is used by something else than
its phis.** -/
theorem mem_solve_of_not_beginsWithPhi (h : f.Complete) (hstarts : f.Starts key b start)
    (hfirst : b.beginsWithPhi = false) (hdst : dst ∈ (Graph.build f .backward).outgoing start) :
    x ∈ (Engine.start flow f).solve.store.get ⟨.inst start, dst⟩ ↔
      ∃ length via, UsePath (Graph.build f .backward) x start dst length via ∧
        ¬ PhiAt (Graph.build f .backward) key (via length) := by
  have hsolve : x ∈ (Engine.start flow f).solve.store.get ⟨.inst start, dst⟩ ↔
      Carried (Graph.build f .backward) killed generated x start dst :=
    (genKillOn f .backward).mem_solve_iff rfl bounded
  constructor
  · intro hx
    obtain ⟨-, length, via, hpath⟩ := carried_iff.1 (hsolve.1 hx)
    refine ⟨length, via, hpath, ?_⟩
    rintro ⟨site, hsite, hblock, hphi⟩
    -- a phi at the start is excluded, and one further inside uses nothing
    by_cases hvia : via length = start
    · rw [hvia] at hsite
      rw [(beginsWithPhi_iff hstarts .backward).2 ⟨site, hsite, hblock, hphi⟩] at hfirst
      cases hfirst
    · exact h.no_uses_of_inner_phi hstarts hsite hblock hphi hvia (hpath.mem_outgoing hdst) x
        hpath.used
  · rintro ⟨length, via, hpath, -⟩
    exact hsolve.2 (carried_iff.2 ⟨hdst, length, via, hpath⟩)

end Liveness

/-- **Where the values of the phis of a finished draft are live.**  A phi takes an instruction's
result from a block that branches to its own.  If its block begins with a phi, that result is in the
fact on the edge to the end of the other block.  If it does not, all that is in this fact is used by
something else than the phis of the block. -/
theorem finish_phiUses (d : Draft) (f : Function) (h : d.finish = .ok f) (key origin : BlockId)
    (b b' : Block) (start start' : Nat) (phi : Instruction) (id : InstId)
    (hstarts : f.Starts key b start) (hstarts' : f.Starts origin b' start') (hphi : phi ∈ b.phis)
    (hvalue : (.inst id, origin) ∈ phi.incoming) (horigin : origin ∈ f.predecessorsOf key) :
    ∃ x, (Graph.build f .backward).indexOf? id = some x ∧
      .inst (start' + b'.instructions.length - 1) ∈ (Graph.build f .backward).outgoing start ∧
      (b.beginsWithPhi = true → x ∈ (Engine.start Liveness.flow f).solve.store.get
        ⟨.inst start, .inst (start' + b'.instructions.length - 1)⟩) ∧
      (b.beginsWithPhi = false → ∀ y, y ∈ (Engine.start Liveness.flow f).solve.store.get
          ⟨.inst start, .inst (start' + b'.instructions.length - 1)⟩ ↔
        ∃ length via, Liveness.UsePath (Graph.build f .backward) y start
            (.inst (start' + b'.instructions.length - 1)) length via ∧
          ¬ Liveness.PhiAt (Graph.build f .backward) key (via length)) := by
  have hcomplete := Draft.complete_of_finish h
  have hmem : phi ∈ f.instructions :=
    List.mem_flatMap.2 ⟨b, List.mem_map.2 ⟨_, hstarts.mem, rfl⟩, List.mem_of_mem_filter hphi⟩
  obtain ⟨x, hx⟩ := hcomplete.exists_index .backward hmem (List.of_mem_zip hvalue).1
  have hdst := hcomplete.outgoing_of_predecessor hstarts hstarts' horigin
  refine ⟨x, hx, hdst, fun hfirst => ?_, fun hfirst y => ?_⟩
  · exact Liveness.mem_solve_of_uses hdst
      (Liveness.uses_of_beginsWithPhi hcomplete hstarts hfirst hstarts' hphi hvalue hx)
  · exact Liveness.mem_solve_of_not_beginsWithPhi hcomplete hstarts hfirst hdst

/-- A sum is computed, and merged at the start of the next block. -/
def Draft.earlyPhi : Draft :=
  (Draft.start "f" .word).applyAll [
    .param "a" .word, .block "entry", .binary .add .word (.arg 0) (.const 1), .br ⟨1⟩,
    .block "next", .switchTo ⟨1⟩, .phi .word [(.inst ⟨0⟩, ⟨0⟩)], .ret (some (.inst ⟨2⟩))]

/-- The function that the draft describes. -/
def Function.earlyPhi : Function where
  name := "f"
  params := [⟨"a", .word⟩]
  ret := .word
  entry := ⟨0⟩
  blocks :=
    { entries := [
        (⟨0⟩, ⟨⟨0⟩, "entry", [
          ⟨⟨0⟩, none, .add, .word, [.arg 0, .const 1], [], none⟩,
          ⟨⟨1⟩, none, .br, .void, [.block ⟨1⟩], [], none⟩]⟩),
        (⟨1⟩, ⟨⟨1⟩, "next", [
          ⟨⟨2⟩, none, .phi, .word, [.inst ⟨0⟩], [⟨0⟩], none⟩,
          ⟨⟨3⟩, none, .ret, .void, [.inst ⟨2⟩], [], none⟩]⟩)]
      nodup := by decide }

/-- The sum is live at the end of the block that computes it. -/
theorem finish_phiUses_earlyPhi :
    Draft.earlyPhi.finish = .ok .earlyPhi ∧
    (Graph.build .earlyPhi .backward).indexOf? ⟨0⟩ = some 0 ∧
    0 ∈ (Engine.start Liveness.flow .earlyPhi).solve.store.get ⟨.inst 2, .inst 1⟩ := by
  have hfinish : Draft.earlyPhi.finish = .ok .earlyPhi := rfl
  have hindex : (Graph.build .earlyPhi .backward).indexOf? ⟨0⟩ = some 0 := by decide
  obtain ⟨x, hx, -, hlive, -⟩ :=
    finish_phiUses _ _ hfinish ⟨1⟩ ⟨0⟩ _ _ 2 0 _ ⟨0⟩ ⟨[_], [], rfl, rfl⟩
    ⟨[], [_], rfl, rfl⟩ List.mem_cons_self List.mem_cons_self (by decide)
  rw [hindex, Option.some.injEq] at hx
  subst hx
  exact ⟨hfinish, hindex, hlive rfl⟩

/-- The sum is merged in the next block as before, but behind another sum. -/
def Draft.latePhi : Draft :=
  (Draft.start "f" .word).applyAll [
    .param "a" .word, .block "entry", .binary .add .word (.arg 0) (.const 1), .br ⟨1⟩,
    .block "next", .switchTo ⟨1⟩, .binary .add .word (.arg 0) (.const 2),
    .phi .word [(.inst ⟨0⟩, ⟨0⟩)], .ret (some (.inst ⟨3⟩))]

/-- The function that the draft describes. -/
def Function.latePhi : Function where
  name := "f"
  params := [⟨"a", .word⟩]
  ret := .word
  entry := ⟨0⟩
  blocks :=
    { entries := [
        (⟨0⟩, ⟨⟨0⟩, "entry", [
          ⟨⟨0⟩, none, .add, .word, [.arg 0, .const 1], [], none⟩,
          ⟨⟨1⟩, none, .br, .void, [.block ⟨1⟩], [], none⟩]⟩),
        (⟨1⟩, ⟨⟨1⟩, "next", [
          ⟨⟨2⟩, none, .add, .word, [.arg 0, .const 2], [], none⟩,
          ⟨⟨3⟩, none, .phi, .word, [.inst ⟨0⟩], [⟨0⟩], none⟩,
          ⟨⟨4⟩, none, .ret, .void, [.inst ⟨3⟩], [], none⟩]⟩)]
      nodup := by decide }

/-- The draft is finished, and its phi takes the sum from a block that branches to its own.  Still
nothing is live on the edge between the two. -/
theorem latePhi_dropped :
    Draft.latePhi.finish = .ok .latePhi ∧
    (⟨⟨3⟩, none, .phi, .word, [.inst ⟨0⟩], [⟨0⟩], none⟩ : Instruction) ∈
      Function.latePhi.blocks.values.flatMap Block.phis ∧
    (⟨⟨3⟩, none, .phi, .word, [.inst ⟨0⟩], [⟨0⟩], none⟩ : Instruction).incoming =
      [(.inst ⟨0⟩, ⟨0⟩)] ∧
    Function.latePhi.predecessorsOf ⟨1⟩ = [⟨0⟩] ∧ Function.latePhi.firstIndex? ⟨1⟩ = some 2 ∧
    (Graph.build .latePhi .backward).outgoing 2 = [.inst 1] ∧
    (Graph.build .latePhi .backward).indexOf? ⟨0⟩ = some 0 ∧
    (Engine.start Liveness.flow .latePhi).solve.store.get ⟨.inst 2, .inst 1⟩ = .empty :=
  ⟨rfl, by decide, rfl, by decide +kernel, by decide, by decide +kernel, by decide,
    by decide +kernel⟩

end Dataflow
