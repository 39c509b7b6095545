import Mathlib.Data.List.Chain

namespace Mcsos.KmemBlocks

/-- One block of the heap: its payload size and whether it is free. -/
structure Block where
  size : Nat
  free : Bool
deriving DecidableEq, Repr

/-- The bytes that a list of blocks occupies, headers included. -/
def extent : List Block → Nat
  | [] => 0
  | b :: bs => 48 + b.size + extent bs

@[simp] theorem extent_nil : extent [] = 0 := rfl

@[simp] theorem extent_cons (b : Block) (bs : List Block) :
    extent (b :: bs) = 48 + b.size + extent bs := rfl

@[simp] theorem extent_append (bs cs : List Block) :
    extent (bs ++ cs) = extent bs + extent cs := by
  induction bs with
  | nil => simp
  | cons b bs ih =>
      simp only [List.cons_append, extent_cons, ih]
      omega

theorem extent_pos {bs : List Block} (h : bs ≠ []) : 48 ≤ extent bs := by
  cases bs with
  | nil => exact absurd rfl h
  | cons b bs =>
      rw [extent_cons]
      omega

/-- The blocks of a list with the addresses of their headers, when the first
header is at `cur`. -/
def placed (cur : Nat) : List Block → List (Nat × Block)
  | [] => []
  | b :: bs => (cur, b) :: placed (cur + 48 + b.size) bs

@[simp] theorem placed_nil (cur : Nat) : placed cur [] = [] := rfl

@[simp] theorem placed_cons (cur : Nat) (b : Block) (bs : List Block) :
    placed cur (b :: bs) = (cur, b) :: placed (cur + 48 + b.size) bs := rfl

theorem placed_append (cur : Nat) (bs cs : List Block) :
    placed cur (bs ++ cs) = placed cur bs ++ placed (cur + extent bs) cs := by
  induction bs generalizing cur with
  | nil => simp
  | cons b bs ih =>
      rw [List.cons_append, placed_cons, placed_cons, ih, List.cons_append, extent_cons]
      congr 3
      omega

theorem placed_bounds {cur a : Nat} {b : Block} {bs : List Block}
    (h : (a, b) ∈ placed cur bs) :
    cur ≤ a ∧ a + 48 + b.size ≤ cur + extent bs := by
  induction bs generalizing cur with
  | nil => simp at h
  | cons c bs ih =>
      rw [placed_cons, List.mem_cons] at h
      rw [extent_cons]
      rcases h with h | h
      · cases h
        omega
      · have := ih h
        omega

theorem placed_disjoint {cur a a' : Nat} {b b' : Block} {bs : List Block}
    (h : (a, b) ∈ placed cur bs) (h' : (a', b') ∈ placed cur bs) :
    (a = a' ∧ b = b') ∨ a + 48 + b.size ≤ a' ∨ a' + 48 + b'.size ≤ a := by
  induction bs generalizing cur with
  | nil => simp at h
  | cons c bs ih =>
      rw [placed_cons, List.mem_cons] at h h'
      rcases h with h | h <;> rcases h' with h' | h'
      · cases h
        cases h'
        exact .inl ⟨rfl, rfl⟩
      · cases h
        exact .inr (.inl (placed_bounds h').1)
      · cases h'
        exact .inr (.inr (placed_bounds h).1)
      · exact ih h h'

theorem exists_split_of_placed {cur a : Nat} {b : Block} {bs : List Block}
    (h : (a, b) ∈ placed cur bs) :
    ∃ pre post, bs = pre ++ b :: post ∧ a = cur + extent pre := by
  induction bs generalizing cur with
  | nil => simp at h
  | cons c bs ih =>
      rw [placed_cons, List.mem_cons] at h
      rcases h with h | h
      · cases h
        exact ⟨[], bs, rfl, rfl⟩
      · obtain ⟨pre, post, rfl, rfl⟩ := ih h
        refine ⟨c :: pre, post, rfl, ?_⟩
        rw [extent_cons]
        omega

theorem mem_placed_middle (cur : Nat) (pre post : List Block) (b : Block) :
    (cur + extent pre, b) ∈ placed cur (pre ++ b :: post) := by
  rw [placed_append, placed_cons]
  simp

/-- The used block that serves a request of `wanted` bytes from a free block,
followed by the free rest when the rest is worth a block of its own. -/
def carve (b : Block) (wanted : Nat) : List Block :=
  if b.size ≤ wanted + 80 then [⟨b.size, false⟩]
  else [⟨wanted, false⟩, ⟨b.size - wanted - 48, true⟩]

theorem extent_carve (b : Block) (wanted : Nat) :
    extent (carve b wanted) = 48 + b.size := by
  unfold carve
  split
  · simp
  · simp only [extent_cons, extent_nil]
    omega

/-- A block followed by the blocks after it, merged with those free blocks that
come next. -/
def mergeForward (b : Block) : List Block → List Block
  | [] => [b]
  | c :: rest =>
      if c.free then mergeForward ⟨b.size + 48 + c.size, b.free⟩ rest else b :: c :: rest

@[simp] theorem extent_mergeForward (b : Block) (rest : List Block) :
    extent (mergeForward b rest) = 48 + b.size + extent rest := by
  induction rest generalizing b with
  | nil => simp [mergeForward]
  | cons c rest ih =>
      rw [mergeForward]
      split
      · rw [ih, extent_cons]
        dsimp only
        omega
      · simp

theorem mergeForward_eq_cons (b : Block) (rest : List Block) :
    ∃ size rest', mergeForward b rest = ⟨size, b.free⟩ :: rest' ∧ rest' <:+ rest ∧
      b.size ≤ size := by
  induction rest generalizing b with
  | nil => exact ⟨b.size, [], rfl, List.suffix_refl _, le_refl _⟩
  | cons c rest ih =>
      rw [mergeForward]
      split
      · obtain ⟨size, rest', heq, hsuffix, hle⟩ := ih ⟨b.size + 48 + c.size, b.free⟩
        refine ⟨size, rest', heq, hsuffix.trans (List.suffix_cons c rest), ?_⟩
        dsimp only at hle
        omega
      · exact ⟨b.size, c :: rest, rfl, List.suffix_refl _, le_refl _⟩

/-- The list after the used block `b` between `pre` and `post` is freed. -/
def freeBetween (pre : List Block) (b : Block) (post : List Block) : List Block :=
  match pre.getLast? with
  | none => mergeForward { b with free := true } post
  | some p =>
      if p.free then
        pre.dropLast ++ mergeForward p (mergeForward { b with free := true } post)
      else pre ++ mergeForward { b with free := true } post

theorem freeBetween_nil (b : Block) (post : List Block) :
    freeBetween [] b post = mergeForward { b with free := true } post := rfl

theorem freeBetween_concat (pre : List Block) (p b : Block) (post : List Block) :
    freeBetween (pre ++ [p]) b post =
      if p.free then pre ++ mergeForward p (mergeForward { b with free := true } post)
      else pre ++ p :: mergeForward { b with free := true } post := by
  simp [freeBetween]

/-- The used blocks of a list, with their header addresses. -/
def used (cur : Nat) (bs : List Block) : List (Nat × Block) :=
  (placed cur bs).filter fun ab => !ab.2.free

theorem mem_used {cur a : Nat} {b : Block} {bs : List Block} :
    (a, b) ∈ used cur bs ↔ (a, b) ∈ placed cur bs ∧ b.free = false := by
  simp [used]

@[simp] theorem used_nil (cur : Nat) : used cur [] = [] := rfl

theorem used_cons (cur : Nat) (b : Block) (bs : List Block) :
    used cur (b :: bs) =
      if b.free then used (cur + 48 + b.size) bs
      else (cur, b) :: used (cur + 48 + b.size) bs := by
  cases hfree : b.free <;> simp [used, hfree]

theorem used_append (cur : Nat) (bs cs : List Block) :
    used cur (bs ++ cs) = used cur bs ++ used (cur + extent bs) cs := by
  simp [used, placed_append]

theorem used_carve (cur : Nat) (b : Block) (wanted : Nat) :
    used cur (carve b wanted) =
      [(cur, ⟨if b.size ≤ wanted + 80 then b.size else wanted, false⟩)] := by
  unfold carve
  split <;> simp [used_cons]

theorem used_middle (cur : Nat) (pre : List Block) (b : Block) (post : List Block) :
    used cur (pre ++ b :: post) =
      used cur pre ++
        ((if b.free then [] else [(cur + extent pre, b)]) ++
          used (cur + extent pre + 48 + b.size) post) := by
  rw [used_append, used_cons]
  cases b.free <;> simp

theorem used_middle_carve (cur : Nat) (pre : List Block) (b : Block) (post : List Block)
    (wanted : Nat) :
    used cur (pre ++ carve b wanted ++ post) =
      used cur pre ++
        ([(cur + extent pre, ⟨if b.size ≤ wanted + 80 then b.size else wanted, false⟩)] ++
          used (cur + extent pre + 48 + b.size) post) := by
  rw [List.append_assoc, used_append, used_append, used_carve, extent_carve]
  congr 3
  omega

theorem used_mergeForward {b : Block} (hfree : b.free = true) (cur : Nat)
    (rest : List Block) :
    used cur (mergeForward b rest) = used (cur + 48 + b.size) rest := by
  induction rest generalizing b with
  | nil => simp [mergeForward, used_cons, hfree]
  | cons c rest ih =>
      rw [mergeForward]
      split
      · rename_i hc
        rw [ih (by exact hfree), used_cons, if_pos hc]
        congr 1
        dsimp only
        omega
      · rw [used_cons, if_pos hfree]

theorem used_freeBetween (cur : Nat) (pre : List Block) (b : Block) (post : List Block) :
    used cur (freeBetween pre b post) =
      used cur pre ++ used (cur + extent pre + 48 + b.size) post := by
  rcases List.eq_nil_or_concat pre with rfl | ⟨pre, p, rfl⟩
  · rw [freeBetween_nil, used_mergeForward rfl]
    simp
  · rw [List.concat_eq_append, freeBetween_concat]
    split
    · rename_i hp
      rw [used_append, used_mergeForward hp, used_mergeForward rfl, used_append, used_cons,
        if_pos hp, used_nil, List.append_nil]
      simp only [extent_append, extent_cons, extent_nil]
      congr 2
      omega
    · rename_i hp
      rw [used_append, used_cons, if_neg hp, used_mergeForward rfl, used_append, used_cons,
        if_neg hp, used_nil, List.append_assoc]
      simp only [extent_append, extent_cons, extent_nil, List.cons_append, List.nil_append]
      congr 4
      omega

theorem mem_used_freeBetween {cur a : Nat} {pre post : List Block} {b c : Block} :
    (a, c) ∈ used cur (freeBetween pre b post) ↔
      (a, c) ∈ used cur (pre ++ b :: post) ∧ a ≠ cur + extent pre := by
  rw [used_freeBetween, used_middle, List.mem_append, List.mem_append, List.mem_append]
  constructor
  · rintro (h | h)
    · have := placed_bounds (mem_used.mp h).1
      exact ⟨.inl h, by omega⟩
    · have := placed_bounds (mem_used.mp h).1
      exact ⟨.inr (.inr h), by omega⟩
  · rintro ⟨h | h | h, hne⟩
    · exact .inl h
    · split at h
      · simp at h
      · rw [List.mem_singleton] at h
        cases h
        exact absurd rfl hne
    · exact .inr h

/-- No two neighbours are both free. -/
def NoAdjacentFree (bs : List Block) : Prop :=
  List.IsChain (fun b c : Block => ¬(b.free = true ∧ c.free = true)) bs

theorem noAdjacentFree_mergeForward {b : Block} {rest : List Block}
    (h : NoAdjacentFree rest) : NoAdjacentFree (mergeForward b rest) := by
  induction rest generalizing b with
  | nil => exact List.IsChain.singleton b
  | cons c rest ih =>
      rw [mergeForward]
      split
      · exact ih (List.isChain_cons.mp h).2
      · rename_i hc
        exact List.isChain_cons_cons.mpr ⟨fun hbc => hc hbc.2, h⟩

theorem noAdjacentFree_carve {pre post : List Block} {b : Block} (wanted : Nat)
    (hfree : b.free = true) (h : NoAdjacentFree (pre ++ b :: post)) :
    NoAdjacentFree (pre ++ carve b wanted ++ post) := by
  obtain ⟨hpre, hpost, -⟩ := List.isChain_append.mp h
  obtain ⟨hhead, htail⟩ := List.isChain_cons.mp hpost
  have hafter : ∀ c ∈ post.head?, c.free = false := by
    intro c hc
    have := hhead c hc
    simpa [hfree] using this
  have hmiddle : NoAdjacentFree (carve b wanted ++ post) := by
    unfold carve
    split
    · exact List.isChain_cons.mpr ⟨by simp, htail⟩
    · refine List.isChain_cons_cons.mpr ⟨by simp, List.isChain_cons.mpr ⟨?_, htail⟩⟩
      intro c hc
      simp [hafter c hc]
  rw [List.append_assoc]
  refine List.isChain_append.mpr ⟨hpre, hmiddle, ?_⟩
  intro c hc d hd
  have hused : d.free = false := by
    unfold carve at hd
    split at hd <;> simp at hd <;> simp [← hd]
  simp [hused]

theorem noAdjacentFree_freeBetween {pre post : List Block} {b : Block}
    (h : NoAdjacentFree (pre ++ b :: post)) :
    NoAdjacentFree (freeBetween pre b post) := by
  obtain ⟨hpre, hbpost, -⟩ := List.isChain_append.mp h
  have hmid : NoAdjacentFree (mergeForward { b with free := true } post) :=
    noAdjacentFree_mergeForward (List.isChain_cons.mp hbpost).2
  rcases List.eq_nil_or_concat pre with rfl | ⟨pre, p, rfl⟩
  · exact hmid
  · rw [List.concat_eq_append] at hpre ⊢
    rw [freeBetween_concat]
    obtain ⟨hfirst, -, hjoin⟩ := List.isChain_append.mp hpre
    split
    · refine List.isChain_append.mpr ⟨hfirst, noAdjacentFree_mergeForward hmid, ?_⟩
      obtain ⟨size, rest', heq, -, -⟩ :=
        mergeForward_eq_cons p (mergeForward { b with free := true } post)
      intro c hc d hd
      rw [heq] at hd
      cases hd
      exact hjoin c hc p rfl
    · rename_i hp
      refine List.isChain_append.mpr ⟨hfirst, List.isChain_cons.mpr ⟨?_, hmid⟩, ?_⟩
      · intro c _ hboth
        exact hp hboth.1
      · intro c hc d hd
        cases hd
        exact hjoin c hc p rfl

theorem NoAdjacentFree.neighbours {pre post : List Block} {b : Block}
    (h : NoAdjacentFree (pre ++ b :: post)) (hfree : b.free = true) :
    (∀ p ∈ pre.getLast?, p.free = false) ∧ ∀ c ∈ post.head?, c.free = false := by
  obtain ⟨-, hpost, hjoin⟩ := List.isChain_append.mp h
  constructor
  · intro p hp
    have hnot := hjoin p hp b rfl
    simpa [hfree] using hnot
  · intro c hc
    have hnot := (List.isChain_cons.mp hpost).1 c hc
    simpa [hfree] using hnot

theorem mergeForward_of_used (b : Block) {post : List Block}
    (h : ∀ c ∈ post.head?, c.free = false) : mergeForward b post = b :: post := by
  rcases post with _ | ⟨c, post⟩
  · rfl
  · rw [mergeForward, h c rfl, if_neg Bool.false_ne_true]

theorem freeBetween_of_used {pre : List Block} (b : Block) (post : List Block)
    (h : ∀ p ∈ pre.getLast?, p.free = false) :
    freeBetween pre b post = pre ++ mergeForward { b with free := true } post := by
  rcases List.eq_nil_or_concat pre with rfl | ⟨pre, p, rfl⟩
  · rfl
  · rw [List.concat_eq_append] at h ⊢
    rw [freeBetween_concat, h p (by simp), if_neg Bool.false_ne_true]
    simp

/-- How many blocks a free merges away behind a block and before it: the number of its free
neighbours. -/
def freeAfter (post : List Block) : Nat := (post.head?.any Block.free).toNat

def freeBefore (pre : List Block) : Nat := (pre.getLast?.any Block.free).toNat

theorem length_mergeForward (b : Block) {post : List Block} (h : NoAdjacentFree post) :
    (mergeForward b post).length + freeAfter post = post.length + 1 := by
  rcases post with _ | ⟨c, post⟩
  · rfl
  rw [mergeForward]
  split
  case isTrue hc =>
    have hchain : NoAdjacentFree ([] ++ c :: post) := h
    have hrest := (hchain.neighbours hc).2
    rw [mergeForward_of_used _ hrest]
    simp [freeAfter, hc]
  case isFalse hc =>
    simp [freeAfter, hc]

theorem length_freeBetween {pre post : List Block} {b : Block}
    (h : NoAdjacentFree (pre ++ b :: post)) :
    (freeBetween pre b post).length + (freeBefore pre + freeAfter post) =
      (pre ++ b :: post).length := by
  obtain ⟨hpre, hbpost, -⟩ := List.isChain_append.mp h
  have hpost : NoAdjacentFree post := (List.isChain_cons.mp hbpost).2
  have hlength := length_mergeForward { b with free := true } hpost
  rcases List.eq_nil_or_concat pre with rfl | ⟨pre, p, rfl⟩
  · rw [freeBetween_nil]
    simp only [freeBefore, List.getLast?_nil, Option.any_none, Bool.toNat_false, List.nil_append,
      List.length_cons]
    omega
  · rw [List.concat_eq_append, freeBetween_concat]
    have hbefore : freeBefore (pre ++ [p]) = p.free.toNat := by simp [freeBefore]
    rw [hbefore]
    split
    case isTrue hp =>
      -- The freed block is itself merged into the one before it, and nothing else is.
      obtain ⟨size, rest, heq, -, -⟩ := mergeForward_eq_cons { b with free := true } post
      have hmid := noAdjacentFree_mergeForward (b := { b with free := true }) hpost
      rw [heq] at hlength hmid ⊢
      have hchain : NoAdjacentFree ([] ++ ⟨size, true⟩ :: rest) := hmid
      have hrest := (hchain.neighbours rfl).2
      rw [mergeForward, if_pos rfl, mergeForward_of_used _ hrest, hp]
      simp only [List.length_append, List.length_cons, List.length_nil, Bool.toNat_true] at *
      omega
    case isFalse hp =>
      rw [Bool.not_eq_true] at hp
      rw [hp]
      simp only [List.length_append, List.length_cons, List.length_nil, Bool.toNat_false] at *
      omega

theorem freeBetween_carve {pre post : List Block} {b : Block} (wanted : Nat)
    (hfree : b.free = true) (h : NoAdjacentFree (pre ++ b :: post)) :
    ∃ size rest, carve b wanted = ⟨size, false⟩ :: rest ∧
      freeBetween pre ⟨size, false⟩ (rest ++ post) = pre ++ b :: post := by
  obtain ⟨hpre, hpost⟩ := h.neighbours hfree
  have hb : (⟨b.size, true⟩ : Block) = b := by rw [← hfree]
  unfold carve
  split
  case isTrue hsmall =>
    refine ⟨b.size, [], rfl, ?_⟩
    rw [freeBetween_of_used _ _ hpre, List.nil_append, mergeForward_of_used _ hpost, hb]
  case isFalse hlarge =>
    have hsum : wanted + 48 + (b.size - wanted - 48) = b.size := by omega
    refine ⟨wanted, [⟨b.size - wanted - 48, true⟩], rfl, ?_⟩
    rw [freeBetween_of_used _ _ hpre, List.singleton_append, mergeForward, if_pos rfl]
    dsimp only
    rw [hsum, mergeForward_of_used _ hpost, hb]

theorem eq_singleton_of_used_eq_nil {cur : Nat} {bs : List Block} (hne : bs ≠ [])
    (hmerged : NoAdjacentFree bs) (hused : used cur bs = []) :
    ∃ size, bs = [⟨size, true⟩] := by
  rcases bs with _ | ⟨b, _ | ⟨c, bs⟩⟩
  · exact absurd rfl hne
  · cases hb : b.free
    · simp [used_cons, hb] at hused
    · exact ⟨b.size, by rw [← hb]⟩
  · have hb : b.free = true := by
      by_contra hb
      simp [used_cons, hb] at hused
    have hc : c.free = true := by
      by_contra hc
      simp [used_cons, hb, hc] at hused
    exact absurd ⟨hb, hc⟩ (List.isChain_cons_cons.mp hmerged).1

end Mcsos.KmemBlocks
