import Mcsos.LoopRounds
import Mcsos.VfsEffects

namespace Mcsos.PathWalkers

open Mcsos.LoopRounds
open Mcsos.RamfsModel
open Mcsos.VfsNames
open Mcsos.VfsEffects

/-- Where a walk is: the current node and the rest of the path. -/
abbrev Walk := Nat × List UInt8

/-- One round of the loop of `mcs_ramfs_lookup`. -/
def lookupRound (fs : McsRamfs) : Walk → Walk ⊕ Except McsStatus Nat
  | (cur, seg) =>
      if deref seg = 0 then .inr (.error .einval)
      else
        let segLen := segmentLength seg
        let next := seg.drop segLen
        if segLen = 0 ∨ mcsMaxName ≤ segLen then .inr (.error .einval)
        else
          match mcsFindChild fs (fs.nodes cur).id seg segLen with
          | .error rc => .inr (.error rc)
          | .ok child =>
              if deref next = 0 then .inr (.ok child)
              else if (fs.nodes child).type ≠ .dir then .inr (.error .enotdir)
              else .inl (child, next.drop 1)

/-- One round of the loop of `mcs_split_parent_leaf`. -/
def splitRound (fs : McsRamfs) : Walk → Walk ⊕ Except McsStatus (Nat × List UInt8 × Nat)
  | (cur, seg) =>
      let segLen := segmentLength seg
      let next := seg.drop segLen
      if segLen = 0 ∨ mcsMaxName ≤ segLen then .inr (.error .einval)
      else if deref next = 0 then .inr (.ok (cur, seg, segLen))
      else
        match mcsFindChild fs (fs.nodes cur).id seg segLen with
        | .error rc => .inr (.error rc)
        | .ok child =>
            if (fs.nodes child).type ≠ .dir then .inr (.error .enotdir)
            else .inl (child, next.drop 1)

/-- What `mcs_find_child` makes of the parent and the leaf that a split returns. -/
def findLeaf (fs : McsRamfs) : Except McsStatus (Nat × List UInt8 × Nat) → Except McsStatus Nat
  | .error rc => .error rc
  | .ok (parent, leaf, leafLen) => mcsFindChild fs (fs.nodes parent).id leaf leafLen

section Rounds

variable {fs : McsRamfs} {cur : Nat} {seg : List UInt8} {t : Walk}

/-- The walk goes on behind its first segment: the segment is a name, it is not the last
one, and it leads to a directory. -/
def GoesOn (fs : McsRamfs) (cur : Nat) (seg : List UInt8) (t : Walk) : Prop :=
  ¬(segmentLength seg = 0 ∨ mcsMaxName ≤ segmentLength seg) ∧
    deref (seg.drop (segmentLength seg)) ≠ 0 ∧
    mcsFindChild fs (fs.nodes cur).id seg (segmentLength seg) = .ok t.1 ∧
    (fs.nodes t.1).type = .dir ∧ t.2 = (seg.drop (segmentLength seg)).drop 1

theorem goesOn_of_splitRound (h : splitRound fs (cur, seg) = .inl t) : GoesOn fs cur seg t := by
  unfold splitRound at h
  dsimp only at h
  split at h
  · cases h
  case isFalse hlen =>
    split at h
    · cases h
    case isFalse hnext =>
      split at h
      · cases h
      case h_2 child hfind =>
        split at h
        · cases h
        case isFalse hdir =>
          cases h
          exact ⟨hlen, hnext, hfind, not_not.mp hdir, rfl⟩

theorem segmentLength_end (h : deref seg = 0) : segmentLength seg = 0 := by
  rcases seg with _ | ⟨c, seg⟩
  · rfl
  · have hc : c = 0 := h
    rw [segmentLength, if_neg (by simp [hc])]

theorem GoesOn.lookupRound (h : GoesOn fs cur seg t) : lookupRound fs (cur, seg) = .inl t := by
  obtain ⟨hlen, hnext, hfind, hdir, hrest⟩ := h
  have hseg : ¬deref seg = 0 := fun hend => hlen (.inl (segmentLength_end hend))
  simp only [PathWalkers.lookupRound, if_neg hseg, if_neg hlen, hfind, if_neg hnext,
    if_neg (not_not.mpr hdir), ← hrest]

theorem GoesOn.shorter (h : GoesOn fs cur seg t) : t.2.length < seg.length := by
  obtain ⟨hlen, -, -, -, hrest⟩ := h
  have hle := segmentLength_le seg
  rw [hrest, List.length_drop, List.length_drop]
  omega

theorem lookupRound_of_splitRound {r : Except McsStatus (Nat × List UInt8 × Nat)}
    (h : splitRound fs (cur, seg) = .inr r) :
    lookupRound fs (cur, seg) = .inr (findLeaf fs r) := by
  unfold splitRound at h
  unfold lookupRound
  dsimp only at h ⊢
  by_cases hlen : segmentLength seg = 0 ∨ mcsMaxName ≤ segmentLength seg
  · -- an empty rest of the path is an empty segment
    rw [if_pos hlen] at h
    cases h
    rw [if_pos hlen, ite_self]
    rfl
  · have hseg : ¬deref seg = 0 := fun hend => hlen (.inl (segmentLength_end hend))
    rw [if_neg hlen] at h
    rw [if_neg hseg, if_neg hlen]
    rcases hfind : mcsFindChild fs (fs.nodes cur).id seg (segmentLength seg) with rc | child
    · rw [hfind] at h
      dsimp only at h ⊢
      split at h
      · cases h
        rw [findLeaf, hfind]
      · cases h
        rfl
    · rw [hfind] at h
      dsimp only at h ⊢
      split at h
      case isTrue hnext =>
        cases h
        rw [if_pos hnext, findLeaf, hfind]
      case isFalse hnext =>
        rw [if_neg hnext]
        split at h
        case isTrue hfile =>
          cases h
          rw [if_pos hfile]
          rfl
        · cases h

end Rounds

theorem splitLoop_round (fs : McsRamfs) (cur : Nat) (seg : List UInt8) (fuel : Nat) :
    splitLoop fs cur seg (fuel + 1) =
      Sum.elim (fun t => splitLoop fs t.1 t.2 fuel) id (splitRound fs (cur, seg)) := by
  unfold splitRound
  rw [splitLoop]
  dsimp only
  generalize mcsFindChild fs (fs.nodes cur).id seg (segmentLength seg) = found
  split
  · rfl
  · split
    · rfl
    · rcases found with rc | child
      · rfl
      · dsimp only
        split <;> rfl

theorem lookupLoop_round (fs : McsRamfs) (cur : Nat) (seg : List UInt8) (fuel : Nat) :
    lookupLoop fs cur seg (fuel + 1) =
      Sum.elim (fun t => lookupLoop fs t.1 t.2 fuel) id (lookupRound fs (cur, seg)) := by
  unfold lookupRound
  rw [lookupLoop]
  dsimp only
  generalize mcsFindChild fs (fs.nodes cur).id seg (segmentLength seg) = found
  split
  · rfl
  · split
    · rfl
    · rcases found with rc | child
      · rfl
      · dsimp only
        split
        · rfl
        · split <;> rfl

/-- Both walks end, in the same round, and the split leads to what the lookup finds. -/
theorem walks_finish (fs : McsRamfs) (s : Walk) :
    ∃ rounds r, rounds ≤ s.2.length + 1 ∧ Finishes (splitRound fs) s rounds r ∧
      Finishes (lookupRound fs) s rounds (findLeaf fs r) := by
  obtain ⟨rounds, r, hle, hsplit⟩ := finishes_of_decreasing (fun s : Walk => s.2.length)
    (fun s t hround => (goesOn_of_splitRound hround).shorter) s
  obtain ⟨r', hlookup, rfl⟩ := hsplit.simulation (fun r r' => r' = findLeaf fs r)
    (fun s t hround => (goesOn_of_splitRound hround).lookupRound)
    (fun s r hround => ⟨_, lookupRound_of_splitRound hround, rfl⟩)
  exact ⟨rounds, r, hle, hsplit, hlookup⟩

/-- The walks of both functions from the root along a path: each ends with the result that
the function returns, and the results agree. -/
structure WalkersAgree (fs : McsRamfs) (path : List UInt8) : Prop where
  agree : mcsRamfsLookup fs (some path) = findLeaf fs (mcsSplitParentLeaf fs path)
  splitEnds : deref path = slash → ∃ rounds,
    Finishes (splitRound fs) (0, path.drop 1) rounds (splitLoop fs 0 (path.drop 1) path.length)
  lookupEnds : deref path = slash → ∃ rounds,
    Finishes (lookupRound fs) (0, path.drop 1) rounds (lookupLoop fs 0 (path.drop 1) path.length)

theorem cString_root {path : List UInt8} (hslash : deref path = slash)
    (hend : deref (path.drop 1) = 0) : cString path = [slash] := by
  rcases path with _ | ⟨c, s⟩
  · cases hslash
  · have hc : c = slash := hslash
    rw [cString, hc, List.takeWhile_cons_of_pos (by decide)]
    rcases s with _ | ⟨d, s⟩
    · rfl
    · have hd : d = 0 := hend
      rw [hd]
      rfl

/-- On every node table and for every path but the root's, the two walks agree. -/
theorem walkersAgree (fs : McsRamfs) {path : List UInt8} (hpath : cString path ≠ [slash]) :
    WalkersAgree fs path := by
  obtain ⟨rounds, r, hle, hsplit, hlookup⟩ := walks_finish fs (0, path.drop 1)
  have hfuel : deref path = slash → rounds ≤ path.length := by
    intro hslash
    have hne : path.length ≠ 0 := by
      intro hzero
      rw [List.length_eq_zero_iff.mp hzero] at hslash
      cases hslash
    rw [List.length_drop] at hle
    omega
  have hsplitLoop : deref path = slash → splitLoop fs 0 (path.drop 1) path.length = r :=
    fun hslash => hsplit.fuel (fun s fuel => splitLoop fs s.1 s.2 fuel)
      (fun s fuel => splitLoop_round fs s.1 s.2 fuel) (hfuel hslash)
  have hlookupLoop : deref path = slash →
      lookupLoop fs 0 (path.drop 1) path.length = findLeaf fs r :=
    fun hslash => hlookup.fuel (fun s fuel => lookupLoop fs s.1 s.2 fuel)
      (fun s fuel => lookupLoop_round fs s.1 s.2 fuel) (hfuel hslash)
  constructor
  · rw [mcsRamfsLookup, mcsSplitParentLeaf]
    by_cases hslash : deref path ≠ slash
    · rw [if_pos hslash, if_pos hslash]
      rfl
    · have hslash' := not_not.mp hslash
      have hmore : ¬deref (path.drop 1) = 0 := fun hend => hpath (cString_root hslash' hend)
      rw [if_neg hslash, if_neg hslash, if_neg hmore, if_neg hmore]
      split
      · rfl
      · rw [hlookupLoop hslash', hsplitLoop hslash']
  · intro hslash
    rw [hsplitLoop hslash]
    exact ⟨rounds, hsplit⟩
  · intro hslash
    rw [hlookupLoop hslash]
    exact ⟨rounds, hlookup⟩

/-- A directory `d` with a file `f`, which no call creates. -/
def nestedFs : McsRamfs where
  nodes i :=
    match i with
    | 0 => ⟨true, 0, 0, .dir, mcsCopyName [slash] 1, 0, 0, 0⟩
    | 1 => ⟨true, 1, 0, .dir, mcsCopyName [0x64] 1, 0, 0, 0⟩
    | _ => ⟨true, i, 1, .file, mcsCopyName [0x66] 1, 0, 0, fileCapacity⟩
  nodeCount := 3
  data _ := 0
  dataUsed := fileCapacity

theorem walkersAgree_nestedFs :
    mcsRamfsLookup nestedFs (some [slash, 0x64, slash, 0x66]) = .ok 2 ∧
      WalkersAgree nestedFs [slash, 0x64, slash, 0x66] :=
  ⟨rfl, walkersAgree nestedFs (by decide)⟩

end Mcsos.PathWalkers
