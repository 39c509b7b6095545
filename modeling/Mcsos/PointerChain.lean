import Mathlib.Data.List.Nodup

/-!
Singly linked lists threaded through records: a `next` pointer per record and a
null pointer at the end.
-/

namespace Mcsos.PointerChain

universe u

variable {α : Type u}

/-- Following `next` from `p` visits exactly the records of the list, and then
reaches `null`. -/
def Linked (next : α → α) (null : α) : α → List α → Prop
  | p, [] => p = null
  | p, a :: l => p = a ∧ a ≠ null ∧ Linked next null (next a) l

variable {next next' : α → α} {null p : α} {l : List α}

@[simp] theorem linked_nil : Linked next null p [] ↔ p = null := Iff.rfl

@[simp] theorem linked_cons {a : α} :
    Linked next null p (a :: l) ↔ p = a ∧ a ≠ null ∧ Linked next null (next a) l := Iff.rfl

theorem Linked.ne_null (h : Linked next null p l) {a : α} (ha : a ∈ l) : a ≠ null := by
  induction l generalizing p with
  | nil => cases ha
  | cons b l ih =>
      obtain ⟨-, hb, hrest⟩ := h
      rcases List.mem_cons.mp ha with rfl | htail
      · exact hb
      · exact ih hrest htail

theorem Linked.congr (h : Linked next null p l) (hsame : ∀ a ∈ l, next' a = next a) :
    Linked next' null p l := by
  induction l generalizing p with
  | nil => exact h
  | cons b l ih =>
      obtain ⟨hp, hb, hrest⟩ := h
      refine ⟨hp, hb, ?_⟩
      rw [hsame b List.mem_cons_self]
      exact ih hrest fun a ha => hsame a (List.mem_cons_of_mem b ha)

theorem Linked.unique {l' : List α} (h : Linked next null p l) (h' : Linked next null p l') :
    l = l' := by
  induction l generalizing p l' with
  | nil =>
      rcases l' with _ | ⟨b, l'⟩
      · rfl
      · exact absurd (h'.1.symm.trans h) h'.2.1
  | cons a l ih =>
      obtain ⟨rfl, ha, hrest⟩ := h
      rcases l' with _ | ⟨b, l'⟩
      · exact absurd h' ha
      · obtain ⟨rfl, -, hrest'⟩ := h'
        rw [ih hrest hrest']

/-- Clearing the link of a record drops what comes after it. -/
theorem Linked.cut {before after : List α} {a : α}
    (h : Linked next null p (before ++ a :: after)) (hsame : ∀ b ∈ before, next' b = next b)
    (hend : next' a = null) : Linked next' null p (before ++ [a]) := by
  induction before generalizing p with
  | nil => exact ⟨h.1, h.2.1, hend⟩
  | cons b before ih =>
      obtain ⟨hp, hb, hrest⟩ := h
      refine ⟨hp, hb, ?_⟩
      rw [hsame b List.mem_cons_self]
      exact ih hrest fun c hc => hsame c (List.mem_cons_of_mem b hc)

/-- Linking a record behind the last one appends it. -/
theorem Linked.append {last a : α} (h : Linked next null p l) (hlast : l.getLast? = some last)
    (hnodup : l.Nodup) (hsame : ∀ b ∈ l, b ≠ last → next' b = next b)
    (hlink : next' last = a) (ha : a ≠ null) (hend : next' a = null) :
    Linked next' null p (l ++ [a]) := by
  induction l generalizing p with
  | nil => cases hlast
  | cons b l ih =>
      obtain ⟨hp, hb, hrest⟩ := h
      obtain ⟨hnotin, hnodup⟩ := List.nodup_cons.mp hnodup
      rcases l with _ | ⟨c, l⟩
      · cases hlast
        exact ⟨hp, hb, hlink, ha, hend⟩
      · rw [List.getLast?_cons_cons] at hlast
        have hne : b ≠ last := by
          rintro rfl
          exact hnotin (List.mem_of_getLast? hlast)
        refine ⟨hp, hb, ?_⟩
        rw [hsame b List.mem_cons_self hne]
        exact ih hrest hlast hnodup fun d hd => hsame d (List.mem_cons_of_mem b hd)

end Mcsos.PointerChain
