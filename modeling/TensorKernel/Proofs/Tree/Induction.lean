import TensorKernel.Tree.Basic

/-!
Induction over trees: what holds of a node whenever it holds of its children holds of every tree. A
property holds everywhere in a tree if all nodes of the tree have it.
-/

namespace TensorKernel.Node

@[elab_as_elim]
theorem induction {motive : Node → Prop}
    (node : ∀ kind indices pattern layout prefetch children, (∀ c ∈ children, motive c) →
      motive ⟨kind, indices, pattern, layout, prefetch, children⟩) (n : Node) : motive n :=
  @Node.rec motive (fun children => ∀ c ∈ children, motive c) node (by simp)
    (fun _ _ head tail => by simpa using ⟨head, tail⟩) n

theorem mem_postorderAll {x : Node} {children : List Node} :
    x ∈ postorderAll children ↔ ∃ c ∈ children, x ∈ c.postorder := by
  induction children with
  | nil => simp [postorderAll]
  | cons child children ih => simp [postorderAll, ih]

theorem mem_postorder {n x : Node} :
    x ∈ n.postorder ↔ x = n ∨ ∃ c ∈ n.children, x ∈ c.postorder := by
  obtain ⟨kind, indices, pattern, layout, prefetch, children⟩ := n
  rw [postorder, List.mem_append, mem_postorderAll, List.mem_singleton, or_comm]

theorem postorder_eq (n : Node) : n.postorder = n.children.flatMap postorder ++ [n] := by
  have all (children : List Node) : postorderAll children = children.flatMap postorder := by
    induction children with
    | nil => rfl
    | cons c cs ih => rw [postorderAll, ih, List.flatMap_cons]
  obtain ⟨_, _, _, _, _, children⟩ := n
  rw [postorder, all]

def Everywhere (P : Node → Prop) (n : Node) : Prop := ∀ x ∈ n.postorder, P x

instance {P : Node → Prop} [DecidablePred P] (n : Node) : Decidable (n.Everywhere P) :=
  inferInstanceAs (Decidable (∀ x ∈ n.postorder, P x))

section
variable {P Q : Node → Prop} {n : Node}

theorem everywhere_iff : n.Everywhere P ↔ P n ∧ ∀ c ∈ n.children, c.Everywhere P := by
  constructor
  · intro h
    refine ⟨h n (mem_postorder.mpr (.inl rfl)), fun c hc x hx => ?_⟩
    exact h x (mem_postorder.mpr (.inr ⟨c, hc, hx⟩))
  · rintro ⟨root, children⟩ x hx
    rcases mem_postorder.mp hx with rfl | ⟨c, hc, hx⟩
    · exact root
    · exact children c hc x hx

theorem Everywhere.root (h : n.Everywhere P) : P n := (everywhere_iff.mp h).1

theorem Everywhere.children (h : n.Everywhere P) : ∀ c ∈ n.children, c.Everywhere P :=
  (everywhere_iff.mp h).2

/-- What holds everywhere in a tree holds everywhere in its subtrees. -/
theorem Everywhere.subtree {x : Node} (h : n.Everywhere P) (hx : x ∈ n.postorder) :
    x.Everywhere P := by
  induction n using Node.induction with
  | node kind indices pattern layout prefetch children ih =>
    rcases mem_postorder.mp hx with rfl | ⟨c, hc, hx⟩
    · exact h
    · exact ih c hc (h.children c hc) hx

theorem mem_postorder_of_child {x c : Node} (hx : x ∈ n.postorder) (hc : c ∈ x.children) :
    c ∈ n.postorder := by
  have all : n.Everywhere (· ∈ n.postorder) := fun _ mem => mem
  exact ((all.subtree hx).children c hc).root

theorem Everywhere.mono (h : n.Everywhere P) (imp : ∀ x, P x → Q x) : n.Everywhere Q :=
  fun x hx => imp x (h x hx)

end

end TensorKernel.Node
