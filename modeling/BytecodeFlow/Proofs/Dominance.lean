import BytecodeFlow.Proofs.Paths

/-!
# Dominance

A node dominates another if every path from the root to the other passes through it. Among the
strict dominators of a reachable node one is dominated by all the others: the last strict dominator
on any path to the node (`exists_immediate`). There is no other one (`IsImmediateDominator.unique`).
-/

namespace BytecodeFlow.Digraph

variable {α : Type} {g : Digraph α} {root : Nat}

/-- Every path from `root` to `node` passes through `above`. -/
def Dominates (g : Digraph α) (root above node : Nat) : Prop :=
  ∀ nodes, g.Path root node nodes → above ∈ nodes

/-- `above` dominates `node` and differs from it. -/
def StrictlyDominates (g : Digraph α) (root above node : Nat) : Prop :=
  above ≠ node ∧ g.Dominates root above node

/-- `above` strictly dominates `node`, and every other strict dominator of `node` dominates it. -/
def IsImmediateDominator (g : Digraph α) (root above node : Nat) : Prop :=
  g.StrictlyDominates root above node ∧
    ∀ other, g.StrictlyDominates root other node → g.Dominates root other above

/-! ## The order of dominators -/

namespace Dominates

variable {a b c node : Nat}

theorem refl (node : Nat) : g.Dominates root node node :=
  fun _ hPath => hPath.target_mem

theorem trans (hab : g.Dominates root a b) (hbc : g.Dominates root b c) :
    g.Dominates root a c := by
  intro nodes hPath
  obtain ⟨left, _, hLeft, -, hSub, -⟩ := hPath.split (hbc nodes hPath)
  exact hSub a (hab left hLeft)

/-- A dominator of a reachable node is reachable. -/
theorem reaches (hab : g.Dominates root a b) (hb : g.Reaches root b) : g.Reaches root a := by
  obtain ⟨nodes, hPath⟩ := hb
  obtain ⟨left, _, hLeft, -⟩ := hPath.split (hab nodes hPath)
  exact ⟨left, hLeft⟩

/-- Of two different reachable nodes that dominate each other, the one that a path comes to first
would be reached without the other. -/
theorem antisymm (hab : g.Dominates root a b) (hba : g.Dominates root b a)
    (hReach : g.Reaches root a) : a = b := by
  by_contra hNe
  obtain ⟨nodes, hPath⟩ := hReach
  obtain ⟨first, left, hFirst, hLeft, hFree⟩ :=
    hPath.split_first (P := fun x => x = a ∨ x = b) ⟨a, hPath.target_mem, Or.inl rfl⟩
  rcases hFirst with rfl | rfl
  · rcases List.mem_append.mp (hba _ hLeft) with hb | hb
    · exact hFree b hb (Or.inr rfl)
    · exact hNe (List.mem_singleton.mp hb).symm
  · rcases List.mem_append.mp (hab _ hLeft) with ha | ha
    · exact hFree a ha (Or.inl rfl)
    · exact hNe (List.mem_singleton.mp ha)

theorem eq_root (hRoot : root < g.size) (h : g.Dominates root a root) : a = root := by
  simpa using h _ (.single hRoot)

theorem of_root (node : Nat) : g.Dominates root root node :=
  fun _ hPath => hPath.source_mem

end Dominates

/-- The last strict dominator on a path to a node is dominated by all of them: a path to it that
avoids another could be continued to the node. -/
theorem exists_immediate {node : Nat} (hReach : g.Reaches root node) (hNe : node ≠ root) :
    ∃ above, g.IsImmediateDominator root above node := by
  obtain ⟨nodes, hPath⟩ := hReach
  obtain ⟨above, right, hStrict, hRight, -, hFree⟩ :=
    hPath.split_last (P := fun x => g.StrictlyDominates root x node)
      ⟨root, hPath.source_mem, hNe.symm, .of_root node⟩
  refine ⟨above, hStrict, fun other hOther left hLeft => ?_⟩
  obtain ⟨joined, hJoined, hMem⟩ := hLeft.append hRight
  rcases (hMem other).mp (hOther.2 joined hJoined) with hx | hx
  · exact hx
  · rcases List.mem_cons.mp hx with rfl | hx
    · exact hLeft.target_mem
    · exact absurd hOther (hFree other hx)

theorem IsImmediateDominator.unique {a b node : Nat} (hReach : g.Reaches root node)
    (ha : g.IsImmediateDominator root a node) (hb : g.IsImmediateDominator root b node) :
    a = b :=
  (hb.2 a ha.1).antisymm (ha.2 b hb.1) (ha.1.2.reaches hReach)

theorem StrictlyDominates.of_dominates {a b c : Nat} (hReach : g.Reaches root c)
    (hab : g.Dominates root a b) (hbc : g.StrictlyDominates root b c) :
    g.StrictlyDominates root a c := by
  refine ⟨?_, hab.trans hbc.2⟩
  rintro rfl
  exact hbc.1 (hbc.2.antisymm hab (hbc.2.reaches hReach))

end BytecodeFlow.Digraph
