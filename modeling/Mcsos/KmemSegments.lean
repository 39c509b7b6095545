import Mathlib.Data.Set.Basic
import Mcsos.KmemBlocks
import Mcsos.KmemHeaders

namespace Mcsos.KmemSegments

open Mcsos.ByteMemory
open Mcsos.KmemModel
open Mcsos.KmemHeaders
open Mcsos.KmemBlocks

/-- The `next` pointer of a block that ends at `a`. -/
def nextPtr (heapEnd a : Nat) : Nat := if a = heapEnd then 0 else a

/-- The header that a block must have in memory. -/
def blockHeader (heapEnd prev cur : Nat) (b : Block) : Header :=
  ⟨kmemMagic, b.size, b.free.toNat, prev, nextPtr heapEnd (cur + 48 + b.size)⟩

/-- The blocks are in memory one after another, starting with a header at `cur`
whose predecessor is `prev`. -/
def Segment (heapEnd : Nat) (m : ByteMem) : (prev cur : Nat) → List Block → Prop
  | _, _, [] => True
  | prev, cur, b :: bs =>
      header m cur = blockHeader heapEnd prev cur b ∧
        Segment heapEnd m cur (cur + 48 + b.size) bs

/-- The address of the last header, or `prev` when there is none. -/
def lastAddr (prev cur : Nat) : List Block → Nat
  | [] => prev
  | b :: bs => lastAddr cur (cur + 48 + b.size) bs

@[simp] theorem lastAddr_concat (prev cur : Nat) (bs : List Block) (b : Block) :
    lastAddr prev cur (bs ++ [b]) = cur + extent bs := by
  induction bs generalizing prev cur with
  | nil => simp [lastAddr]
  | cons c bs ih =>
      rw [List.cons_append, lastAddr, ih, extent_cons]
      omega

section Structure

variable {heapEnd prev cur : Nat} {m m' : ByteMem} {bs cs : List Block}

theorem segment_append :
    Segment heapEnd m prev cur (bs ++ cs) ↔
      Segment heapEnd m prev cur bs ∧
        Segment heapEnd m (lastAddr prev cur bs) (cur + extent bs) cs := by
  induction bs generalizing prev cur with
  | nil => simp [Segment, lastAddr]
  | cons b bs ih =>
      have haddr : cur + 48 + b.size + extent bs = cur + extent (b :: bs) := by
        rw [extent_cons]
        omega
      rw [List.cons_append, Segment, ih, Segment, lastAddr, haddr, and_assoc]

theorem Segment.frame (h : Segment heapEnd m prev cur bs)
    (hsame : ∀ a, cur ≤ a → a < cur + extent bs → m' a = m a) :
    Segment heapEnd m' prev cur bs := by
  induction bs generalizing prev cur with
  | nil => trivial
  | cons b bs ih =>
      rw [extent_cons] at hsame
      refine ⟨?_, ih h.2 fun a hlow hhigh => hsame a (by omega) (by omega)⟩
      rw [← h.1]
      exact header_congr fun a hlow hhigh => hsame a hlow (by omega)

theorem Segment.congr (h : Segment heapEnd m prev cur bs)
    (hsame : ∀ a b, (a, b) ∈ placed cur bs → header m' a = header m a) :
    Segment heapEnd m' prev cur bs := by
  induction bs generalizing prev cur with
  | nil => trivial
  | cons b bs ih =>
      refine ⟨?_, ih h.2 fun a c hmem => hsame a c ?_⟩
      · rw [hsame cur b (by simp), h.1]
      · rw [placed_cons]
        exact List.mem_cons_of_mem _ hmem

theorem Segment.relink {prev' : Nat} (h : Segment heapEnd m prev cur bs)
    (hfirst : bs ≠ [] → header m' cur = { header m cur with prev := prev' })
    (hsame : ∀ a, cur + 48 ≤ a → m' a = m a) :
    Segment heapEnd m' prev' cur bs := by
  cases bs with
  | nil => trivial
  | cons b bs =>
      refine ⟨?_, h.2.frame fun a hlow hhigh => hsame a (by omega)⟩
      rw [hfirst (by simp), h.1]
      rfl

theorem Segment.header_of_placed {a : Nat} {b : Block}
    (h : Segment heapEnd m prev cur bs) (hmem : (a, b) ∈ placed cur bs) :
    ∃ p, header m a = blockHeader heapEnd p a b := by
  induction bs generalizing prev cur with
  | nil => simp at hmem
  | cons c bs ih =>
      rw [placed_cons, List.mem_cons] at hmem
      rcases hmem with hmem | hmem
      · cases hmem
        exact ⟨prev, h.1⟩
      · exact ih h.2 hmem

theorem Segment.header_eq (h : Segment heapEnd m prev cur bs) (h' : Segment heapEnd m' prev cur bs)
    {a : Nat} {b : Block} (hmem : (a, b) ∈ placed cur bs) : header m' a = header m a := by
  induction bs generalizing prev cur with
  | nil => simp at hmem
  | cons c bs ih =>
      rw [placed_cons, List.mem_cons] at hmem
      rcases hmem with hmem | hmem
      · cases hmem
        rw [h.1, h'.1]
      · exact ih h.2 h'.2 hmem

end Structure

/-- The bytes of the headers of a list of blocks. -/
def HeaderByte (cur : Nat) (bs : List Block) (a : Nat) : Prop :=
  ∃ h b, (h, b) ∈ placed cur bs ∧ h ≤ a ∧ a < h + 48

/-- The heap of a state is laid out as the list of blocks says, and does not take up the
whole address space. -/
structure Layout (s : KmemState) (bs : List Block) : Prop where
  initialized : s.gInitialized = true
  head : s.gHead = s.gHeapBase
  base_pos : 0 < s.gHeapBase
  base_aligned : s.gHeapBase % 16 = 0
  end_bound : s.gHeapEnd < 2 ^ 64
  span : s.gHeapEnd < s.gHeapBase + (2 ^ 64 - 32)
  sizes : ∀ b ∈ bs, b.size % 16 = 0 ∧ 0 < b.size
  nonempty : bs ≠ []
  tiles : s.gHeapBase + extent bs = s.gHeapEnd
  segment : Segment s.gHeapEnd s.mem 0 s.gHeapBase bs

theorem extent_aligned {bs : List Block} (h : ∀ b ∈ bs, b.size % 16 = 0) :
    extent bs % 16 = 0 := by
  induction bs with
  | nil => rfl
  | cons b bs ih =>
      have hb : b.size % 16 = 0 := h b (by simp)
      have hbs := ih fun c hc => h c (by simp [hc])
      rw [extent_cons]
      omega

theorem Layout.at_middle {s : KmemState} {pre post : List Block} {b : Block}
    (h : Layout s (pre ++ b :: post)) :
    (s.gHeapBase + extent pre) % 16 = 0 ∧ (b.size % 16 = 0 ∧ 0 < b.size) ∧
      s.gHeapBase + extent pre + 48 + b.size + extent post = s.gHeapEnd ∧
      header s.mem (s.gHeapBase + extent pre) =
        blockHeader s.gHeapEnd (lastAddr 0 s.gHeapBase pre) (s.gHeapBase + extent pre) b := by
  have hbase := h.base_aligned
  have hpre : extent pre % 16 = 0 :=
    extent_aligned fun c hc => (h.sizes c (by simp [hc])).1
  have htiles := h.tiles
  rw [extent_append, extent_cons] at htiles
  refine ⟨by omega, h.sizes b (by simp), by omega, ?_⟩
  exact (segment_append.mp h.segment).2.1

theorem Layout.replace {s : KmemState} {pre mid mid' post : List Block} {m' : ByteMem}
    {after : Nat} (h : Layout s (pre ++ mid ++ post)) (hextent : extent mid' = extent mid)
    (hafter : s.gHeapBase + extent pre + extent mid = after)
    (hsizes : ∀ b ∈ mid', b.size % 16 = 0 ∧ 0 < b.size) (hne : mid' ≠ [])
    (hpre : Segment s.gHeapEnd m' 0 s.gHeapBase pre)
    (hmid : Segment s.gHeapEnd m' (lastAddr 0 s.gHeapBase pre)
      (s.gHeapBase + extent pre) mid')
    (hpost : Segment s.gHeapEnd m' (lastAddr 0 s.gHeapBase (pre ++ mid')) after post) :
    Layout { s with mem := m' } (pre ++ mid' ++ post) where
  initialized := h.initialized
  head := h.head
  base_pos := h.base_pos
  base_aligned := h.base_aligned
  end_bound := h.end_bound
  span := h.span
  sizes := by
    intro b hb
    rw [List.append_assoc, List.mem_append, List.mem_append] at hb
    rcases hb with hb | hb | hb
    · exact h.sizes b (by simp [hb])
    · exact hsizes b hb
    · exact h.sizes b (by simp [hb])
  nonempty := by simp [hne]
  tiles := by
    have := h.tiles
    simp only [extent_append] at this ⊢
    omega
  segment := by
    refine segment_append.mpr ⟨segment_append.mpr ⟨hpre, hmid⟩, ?_⟩
    rw [extent_append, hextent, ← Nat.add_assoc, hafter]
    exact hpost

/-- The frame of an operation: only header bytes of the list before it or of
the list after it have changed. -/
def OnlyHeaders (cur : Nat) (bs bs' : List Block) (m m' : ByteMem) : Prop :=
  ∀ a, ¬HeaderByte cur bs a → ¬HeaderByte cur bs' a → m' a = m a

/-- The addresses at which a header could start and a word holds the magic number, although
no block is there. -/
def impostors (heapEnd cur : Nat) (bs : List Block) (m : ByteMem) : Set Nat :=
  { a | a % 16 = 0 ∧ cur ≤ a ∧ a < heapEnd ∧ blockMagic m a = kmemMagic ∧
    ∀ b, (a, b) ∉ placed cur bs }

/-- What a merge leaves of the header that it removes. -/
def defaced : Header := ⟨0, 0, 1, 0, 0⟩

theorem start_of_magic {m : ByteMem} {k a : Nat} (hmagic : blockMagic m a = kmemMagic)
    (hfree : (header m k).free < 2) (hnext : (header m k).next % 16 = 0) (hk : k % 16 = 0)
    (ha : a % 16 = 0) (hlow : k ≤ a) (hhigh : a < k + 48) : a = k := by
  obtain rfl | rfl | rfl : a = k ∨ a = k + 16 ∨ a = k + 32 := by omega
  · rfl
  · have hword := readLE_add m (k + 16) 4 4
    have hlow : readLE m (k + 16) 4 < 2 := hfree
    change blockMagic m (k + 16) = _ at hword
    rw [hmagic, kmemMagic] at hword
    omega
  · change blockMagic m (k + 32) % 16 = 0 at hnext
    rw [hmagic, kmemMagic] at hnext
    omega

theorem Layout.placed_aligned {s : KmemState} {bs : List Block} (h : Layout s bs) {a : Nat}
    {b : Block} (hmem : (a, b) ∈ placed s.gHeapBase bs) : a % 16 = 0 := by
  obtain ⟨pre, post, rfl, rfl⟩ := exists_split_of_placed hmem
  exact h.at_middle.1

theorem Layout.header_links {s : KmemState} {bs : List Block} (h : Layout s bs) {a : Nat}
    {b : Block} (hmem : (a, b) ∈ placed s.gHeapBase bs) :
    (header s.mem a).free < 2 ∧ (header s.mem a).next % 16 = 0 := by
  obtain ⟨p, hheader⟩ := h.segment.header_of_placed hmem
  have haligned := h.placed_aligned hmem
  obtain ⟨pre, post, rfl, rfl⟩ := exists_split_of_placed hmem
  have hb := (h.sizes b (by simp)).1
  rw [hheader]
  constructor
  · exact b.free.toNat_lt
  · show nextPtr _ _ % 16 = 0
    unfold nextPtr
    split <;> omega

theorem impostors_of_words {heapEnd cur : Nat} {bs : List Block} {m m' : ByteMem}
    (hwords : ∀ a, a % 16 = 0 → blockMagic m' a = kmemMagic → blockMagic m a = kmemMagic) :
    impostors heapEnd cur bs m' ⊆ impostors heapEnd cur bs m := by
  rintro a ⟨ha, hlow, hhigh, hmagic, hnone⟩
  exact ⟨ha, hlow, hhigh, hwords a ha hmagic, hnone⟩

theorem impostors_of_frame {s : KmemState} {m' : ByteMem} {bs bs' : List Block} (h : Layout s bs)
    (h' : Layout { s with mem := m' } bs')
    (hframe : OnlyHeaders s.gHeapBase bs bs' s.mem m')
    (hgone : ∀ k b, (k, b) ∈ placed s.gHeapBase bs →
      (∃ c, (k, c) ∈ placed s.gHeapBase bs') ∨ header m' k = defaced) :
    impostors s.gHeapEnd s.gHeapBase bs' m' ⊆ impostors s.gHeapEnd s.gHeapBase bs s.mem := by
  rintro a ⟨ha, hlow, hhigh, hmagic, hnone⟩
  have hnew : ¬HeaderByte s.gHeapBase bs' a := by
    rintro ⟨k, c, hmem, hle, hlt⟩
    obtain ⟨hfree, hnext⟩ := h'.header_links hmem
    obtain rfl := start_of_magic hmagic hfree hnext (h'.placed_aligned hmem) ha hle hlt
    exact hnone c hmem
  by_cases hold : HeaderByte s.gHeapBase bs a
  · obtain ⟨k, b, hmem, hle, hlt⟩ := hold
    rcases hgone k b hmem with ⟨c, hkept⟩ | hdefaced
    · exact absurd ⟨k, c, hkept, hle, hlt⟩ hnew
    · obtain rfl : a = k := by
        refine start_of_magic hmagic ?_ ?_ (h.placed_aligned hmem) ha hle hlt
        · rw [hdefaced]
          decide
        · rw [hdefaced]
          rfl
      rw [blockMagic_eq, hdefaced] at hmagic
      cases hmagic
  · -- The eight bytes of the word are in no header either, as headers are aligned.
    have hword : blockMagic m' a = blockMagic s.mem a := by
      refine readLE_congr fun x hxlow hxhigh => hframe x ?_ ?_
      · rintro ⟨k, b, hmem, hle, hlt⟩
        have haligned := h.placed_aligned hmem
        exact hold ⟨k, b, hmem, by omega, by omega⟩
      · rintro ⟨k, b, hmem, hle, hlt⟩
        have haligned := h'.placed_aligned hmem
        exact hnew ⟨k, b, hmem, by omega, by omega⟩
    rw [hword] at hmagic
    refine ⟨ha, hlow, hhigh, hmagic, fun b hmem => hold ?_⟩
    exact ⟨a, b, hmem, le_rfl, by omega⟩

end Mcsos.KmemSegments
