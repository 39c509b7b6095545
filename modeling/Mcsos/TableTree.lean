import Mathlib.Data.List.Induction

/-!
Trees of tables that refer to each other.  A node has an optional child at every
index, and what hangs below the root is a tree down to some depth when no node is
reached by two paths.
-/

namespace Mcsos.TableTree

universe u v

variable {ν : Type u} {ι : Type v}

/-- The node at the end of a path. -/
def descend (child : ν → ι → Option ν) : ν → List ι → Option ν
  | node, [] => some node
  | node, i :: path => (child node i).bind fun next => descend child next path

variable {child child' : ν → ι → Option ν} {root : ν} {depth : Nat}

theorem descend_append (node : ν) (first second : List ι) :
    descend child node (first ++ second) =
      (descend child node first).bind fun next => descend child next second := by
  induction first generalizing node with
  | nil => rfl
  | cons i first ih =>
      rw [List.cons_append, descend, descend]
      rcases child node i with _ | next
      · rfl
      · exact ih next

theorem descend_concat (node : ν) (path : List ι) (i : ι) :
    descend child node (path ++ [i]) =
      (descend child node path).bind fun next => child next i := by
  rw [descend_append]
  refine congrArg _ (funext fun next => ?_)
  rw [descend]
  rcases child next i with _ | last
  · rfl
  · rfl

theorem descend_append_of_none {node : ν} {first : List ι} (h : descend child node first = none)
    (second : List ι) : descend child node (first ++ second) = none := by
  rw [descend_append, h]
  rfl

/-- No node is reached by two paths. -/
def IsTree (child : ν → ι → Option ν) (root : ν) (depth : Nat) : Prop :=
  ∀ path path' node, path.length ≤ depth → path'.length ≤ depth →
    descend child root path = some node → descend child root path' = some node → path = path'

theorem descend_congr
    (h : ∀ path node, path.length < depth → descend child root path = some node →
      ∀ i, child' node i = child node i) :
    ∀ path, path.length ≤ depth → descend child' root path = descend child root path := by
  intro path
  induction path using List.reverseRecOn with
  | nil => exact fun _ => rfl
  | append_singleton path i ih =>
      intro hlen
      rw [List.length_append, List.length_singleton] at hlen
      rw [descend_concat, descend_concat, ih (by omega)]
      rcases hnode : descend child root path with _ | node
      · rfl
      · exact h path node (by omega) hnode i

/-- Nodes stay where they are as long as no link is lost. -/
theorem descend_mono
    (h : ∀ path node i next, path.length < depth → descend child root path = some node →
      child node i = some next → child' node i = some next) :
    ∀ path node, path.length ≤ depth → descend child root path = some node →
      descend child' root path = some node := by
  intro path
  induction path using List.reverseRecOn with
  | nil => exact fun _ _ hnode => hnode
  | append_singleton path i ih =>
      intro node hlen hnode
      rw [List.length_append, List.length_singleton] at hlen
      rw [descend_concat] at hnode ⊢
      obtain ⟨parent, hparent, hchild⟩ := Option.bind_eq_some_iff.mp hnode
      rw [ih parent (by omega) hparent, Option.bind_some]
      exact h path parent i node (by omega) hparent hchild

theorem IsTree.congr (htree : IsTree child root depth)
    (h : ∀ path, path.length ≤ depth → descend child' root path = descend child root path) :
    IsTree child' root depth := by
  intro path path' node hlen hlen' hpath hpath'
  rw [h path hlen] at hpath
  rw [h path' hlen'] at hpath'
  exact htree path path' node hlen hlen' hpath hpath'

/-- Every node but the root is the child of one node, at one index. -/
theorem IsTree.existsUnique_parent (htree : IsTree child root depth) {path : List ι} {node : ν}
    (hlen : path.length ≤ depth) (hnode : descend child root path = some node)
    (hroot : node ≠ root) :
    ∃! place : ν × ι, (∃ path, path.length < depth ∧ descend child root path = some place.1) ∧
      child place.1 place.2 = some node := by
  induction path using List.reverseRecOn with
  | nil =>
      cases hnode
      exact absurd rfl hroot
  | append_singleton path i _ =>
      have hlast := hnode
      rw [descend_concat] at hlast
      obtain ⟨parent, hparent, hchild⟩ := Option.bind_eq_some_iff.mp hlast
      rw [List.length_append] at hlen
      refine ⟨(parent, i), ⟨⟨path, hlen, hparent⟩, hchild⟩, ?_⟩
      rintro ⟨parent', j⟩ ⟨⟨path', hlen', hparent'⟩, hchild'⟩
      have hnode' : descend child root (path' ++ [j]) = some node := by
        rw [descend_concat, hparent']
        exact hchild'
      have hsame : path' ++ [j] = path ++ [i] := by
        refine htree _ _ node ?_ ?_ hnode' hnode
        · rw [List.length_append]
          exact hlen'
        · rw [List.length_append]
          exact hlen
      obtain ⟨rfl, hj⟩ := List.append_inj' hsame rfl
      rw [hparent] at hparent'
      cases hparent'
      cases hj
      rfl

/-- A new node without children is put below a node of the tree. -/
structure Links (child child' : ν → ι → Option ν) (root : ν) (depth : Nat) (path : List ι) (i : ι)
    (new : ν) : Prop where
  above : path.length < depth
  parent : ∃ node, descend child root path = some node ∧ child node i = none ∧
    child' node i = some new
  fresh : ∀ path, path.length ≤ depth → descend child root path ≠ some new
  bare : ∀ j, child' new j = none
  others : ∀ path' node j, path'.length < depth → descend child root path' = some node →
    path' ≠ path ∨ j ≠ i → child' node j = child node j

/-- The new node is at the end of its own path, and all others are where they were. -/
theorem Links.descend [DecidableEq ι] {path : List ι} {i : ι} {new : ν}
    (h : Links child child' root depth path i new) :
    ∀ path', path'.length ≤ depth →
      TableTree.descend child' root path' =
        if path' = path ++ [i] then some new else TableTree.descend child root path' := by
  obtain ⟨node, hnode, hnone, hsome⟩ := h.parent
  intro path'
  -- From the end of the path: only its last step can use the new link.
  induction path' using List.reverseRecOn with
  | nil =>
      intro _
      rw [if_neg (by simp)]
      rfl
  | append_singleton path' j ih =>
      intro hlen
      rw [List.length_append, List.length_singleton] at hlen
      rw [descend_concat, descend_concat, ih (by omega)]
      split
      case isTrue hbelow =>
        subst hbelow
        rw [descend_concat, hnode, if_neg (by simp)]
        exact (h.bare j).trans (by rw [Option.bind_some, hnone]; rfl)
      case isFalse hbelow =>
        rcases hother : TableTree.descend child root path' with _ | other
        · have hne : path' ++ [j] ≠ path ++ [i] := by
            intro heq
            rw [(List.append_inj' heq rfl).1, hnode] at hother
            cases hother
          rw [if_neg hne]
          rfl
        · rw [Option.bind_some, Option.bind_some]
          by_cases heq : path' ++ [j] = path ++ [i]
          · obtain ⟨rfl, hj⟩ := List.append_inj' heq rfl
            rw [if_pos heq, ← hsome]
            rw [hnode] at hother
            cases hother
            cases hj
            rfl
          · rw [if_neg heq]
            refine h.others path' other j (by omega) hother ?_
            by_contra hsame
            rw [not_or, not_not, not_not] at hsame
            rw [hsame.1, hsame.2] at heq
            exact heq rfl

theorem IsTree.link {path : List ι} {i : ι} {new : ν} (htree : IsTree child root depth)
    (h : Links child child' root depth path i new) : IsTree child' root depth := by
  classical
  intro first second node hfirst hsecond hnode hnode'
  rw [h.descend first hfirst] at hnode
  rw [h.descend second hsecond] at hnode'
  split at hnode
  case isTrue heq =>
    split at hnode'
    case isTrue heq' => rw [heq, heq']
    case isFalse =>
      cases hnode
      exact absurd hnode' (h.fresh second hsecond)
  case isFalse =>
    split at hnode'
    · cases hnode'
      exact absurd hnode (h.fresh first hfirst)
    · exact htree first second node hfirst hsecond hnode hnode'

end Mcsos.TableTree
