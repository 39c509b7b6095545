import Mcsos.VfsEffects

namespace Mcsos.VfsAppend

open Mcsos.CallSystem
open Mcsos.RamfsModel
open Mcsos.FdModel
open Mcsos.VfsInvariant
open Mcsos.ByteFiles
open Mcsos.VfsNames
open Mcsos.VfsRefinement
open Mcsos.VfsDescriptors
open Mcsos.VfsEffects

/-- The flags of a descriptor that was opened for appending. -/
def AppendFlags (flags : UInt32) : Prop :=
  flags &&& mcsOAppend ≠ 0 ∧ mcsCanWrite flags = true ∧ flags &&& mcsOTrunc = 0

instance (flags : UInt32) : Decidable (AppendFlags flags) :=
  inferInstanceAs (Decidable (_ ∧ _))

/-- The descriptor is open on file `n`, in slot `slot`. -/
def OpenOn (w : VfsWorld) (n i : Nat) (fd : Int) (slot : Nat) : Prop :=
  mcsFdGet (w.tables i) fd = some slot ∧ (w.tables i slot).node = some n

instance (w : VfsWorld) (n i : Nat) (fd : Int) (slot : Nat) : Decidable (OpenOn w n i fd slot) :=
  inferInstanceAs (Decidable (_ ∧ _))

/-- The calls that the statement is about: file `n` is written through descriptors opened
for appending, is not truncated by an `open`, and is not seeded.  Everything else is
free. -/
def AppendCall (n : Nat) (w : VfsWorld) : VfsCall → Prop
  | .seedFile path _ _ => mcsRamfsLookup w.fs path ≠ .ok n
  | .vfsOpen _ path flags => mcsRamfsLookup w.fs path = .ok n → flags &&& mcsOTrunc = 0
  | .vfsWrite i fd _ _ => ∀ slot, OpenOn w n i fd slot → AppendFlags (w.tables i slot).flags
  | _ => True

def appendSystem (n : Nat) : System VfsWorld VfsCall VfsResult where
  allowed := AppendCall n
  step w call := some (w.step call)

/-- The bytes of a buffer. -/
def bufferBytes (buf : Option (Nat → UInt8)) (len : Nat) : List UInt8 :=
  (List.range len).map (buf.getD fun _ => 0)

/-- What a call adds to file `n`: the buffer of a write to it that succeeds. -/
def addedBytes (n : Nat) (w : VfsWorld) (call : VfsCall) : List UInt8 :=
  match call with
  | .vfsWrite i fd buf len =>
      if (∃ slot < mcsMaxOpenFiles, OpenOn w n i fd slot) ∧ 0 ≤ (w.step call).2.ret then
        bufferBytes buf len
      else []
  | _ => []

/-- The buffers of the successful writes to file `n` in a sequence of calls. -/
def appendedBytes (n : Nat) (w : VfsWorld) : List VfsCall → List UInt8
  | [] => []
  | call :: calls => addedBytes n w call ++ appendedBytes n (w.step call).1 calls

theorem overwrite_end (content bytes : List UInt8) :
    overwrite content content.length bytes = content ++ bytes := by
  rw [overwrite]
  split
  case isTrue hnil => rw [hnil, List.append_nil]
  case isFalse hbytes =>
    rw [Nat.sub_self, List.replicate_zero, List.append_nil, List.take_length,
      List.drop_eq_nil_of_le (Nat.le_add_right _ _), List.append_nil]

theorem fileBytes_appended (fs : McsRamfs) (n : Nat) (buf : Nat → UInt8) (len : Nat) :
    fileBytes (writtenFs fs n (fs.nodes n).size buf len) n =
      fileBytes fs n ++ (List.range len).map buf := by
  have hgap : CleanGap fs n (fs.nodes n).size len := fun hlt => absurd hlt (Nat.lt_irrefl _)
  rw [fileBytes_written hgap, ← length_fileBytes, overwrite_end]

section Step

variable {w : VfsWorld} {n i slot len : Nat} {fd : Int} {buf : Option (Nat → UInt8)}

theorem step_append (hsound : Sound w) (hpos : 0 < n) (hn : n < w.fs.nodeCount)
    (hopen : OpenOn w n i fd slot) (hflags : AppendFlags (w.tables i slot).flags)
    (hbuf : buf.isNone = true → len = 0) :
    if (w.fs.nodes n).size + len ≤ fileCapacity then
      (w.step (.vfsWrite i fd buf len)).2.ret = len ∧
        (w.step (.vfsWrite i fd buf len)).1.fs =
          writtenFs w.fs n (w.fs.nodes n).size (buf.getD fun _ => 0) len
    else
      (w.step (.vfsWrite i fd buf len)).2.ret = McsStatus.enospc.code ∧
        (w.step (.vfsWrite i fd buf len)).1.fs = w.fs := by
  obtain ⟨hget, hnode⟩ := hopen
  obtain ⟨happend, hcan, -⟩ := hflags
  have hstart : writeStart w.fs (w.tables i slot) n = (w.fs.nodes n).size := if_pos happend
  have hsize := (hsound.inv.ramfs.file n hpos hn).size
  have hvalid : ¬(buf.isNone = true ∧ len ≠ 0) := fun h => h.2 (hbuf h.1)
  have hwrite := mcsVfsWrite_file hsound.inv.ramfs (hsound.inv.tables i) hvalid hget hcan hnode
    hpos hn
  rw [hstart, if_neg (Nat.not_lt.mpr hsize)] at hwrite
  simp only [VfsWorld.step]
  rw [hwrite]
  split
  case isTrue hfits =>
    rw [if_neg (Nat.not_lt.mpr hfits)]
    exact ⟨rfl, rfl⟩
  case isFalse hfull =>
    rw [if_pos (Nat.not_le.mp hfull)]
    exact ⟨rfl, rfl⟩

theorem sameFile_of_not_write (hsound : Sound w) (hn : n < w.fs.nodeCount) {call : VfsCall}
    (hcall : AppendCall n w call)
    (hother : ∀ i fd buf len slot, call = .vfsWrite i fd buf len → ¬OpenOn w n i fd slot) :
    SameFile w.fs (w.step call).1.fs n := by
  obtain ⟨files, hfiles⟩ := hsound.represents
  rcases step_file hsound.inv hfiles hn call with hsame | hchange
  · exact hsame
  · generalize (w.step call).1.fs = fs' at hchange
    cases hchange with
    | truncate hlookup htrunc hcan =>
        rw [defaultFlags_and (by decide)] at htrunc
        exact absurd (hcall hlookup) htrunc
    | write hget hcan hnode hfits => exact absurd ⟨hget, hnode⟩ (hother _ _ _ _ _ rfl)
    | seed hlookup hfits => exact absurd hlookup hcall

theorem addedBytes_of_not_write {call : VfsCall}
    (hother : ∀ i fd buf len slot, call = .vfsWrite i fd buf len → ¬OpenOn w n i fd slot) :
    addedBytes n w call = [] := by
  cases call with
  | vfsWrite i fd buf len =>
      refine if_neg ?_
      rintro ⟨⟨slot, -, hopen⟩, -⟩
      exact hother i fd buf len slot rfl hopen
  | _ => rfl

theorem fileBytes_write (hsound : Sound w) (hpos : 0 < n) (hn : n < w.fs.nodeCount)
    (hopen : OpenOn w n i fd slot) (hflags : AppendFlags (w.tables i slot).flags) :
    fileBytes (w.step (.vfsWrite i fd buf len)).1.fs n =
      fileBytes w.fs n ++ addedBytes n w (.vfsWrite i fd buf len) := by
  have hslot : ∃ slot < mcsMaxOpenFiles, OpenOn w n i fd slot :=
    ⟨slot, (mcsFdGet_some hopen.1).1, hopen⟩
  by_cases hbuf : buf.isNone = true ∧ len ≠ 0
  · have hwrite : mcsVfsWrite (w.tables i) w.fs fd buf len =
        ⟨w.tables i, w.fs, McsStatus.einval.code, []⟩ := if_pos hbuf
    rw [addedBytes, if_neg]
    · simp only [VfsWorld.step, hwrite]
      exact (List.append_nil _).symm
    · simp only [VfsWorld.step, hwrite]
      exact fun h => absurd h.2 (by decide)
  · have hvalid : buf.isNone = true → len = 0 :=
      fun hnone => not_not.mp fun hlen => hbuf ⟨hnone, hlen⟩
    have happend := step_append hsound hpos hn hopen hflags hvalid
    split at happend
    · rw [addedBytes, if_pos ⟨hslot, by omega⟩, happend.2, fileBytes_appended]
      rfl
    · rw [addedBytes, if_neg, happend.2, List.append_nil]
      rintro ⟨-, hret⟩
      rw [happend.1] at hret
      exact absurd hret (by decide)

theorem fileBytes_step (hsound : Sound w) (hpos : 0 < n) (hn : n < w.fs.nodeCount)
    {call : VfsCall} (hcall : AppendCall n w call) :
    fileBytes (w.step call).1.fs n = fileBytes w.fs n ++ addedBytes n w call := by
  by_cases hother : ∀ i fd buf len slot, call = .vfsWrite i fd buf len → ¬OpenOn w n i fd slot
  · rw [(sameFile_of_not_write hsound hn hcall hother).bytes, addedBytes_of_not_write hother,
      List.append_nil]
  · push Not at hother
    obtain ⟨i, fd, buf, len, slot, rfl, hopen⟩ := hother
    exact fileBytes_write hsound hpos hn hopen (hcall slot hopen)

end Step

theorem openDescriptor_new {table : McsFdTable} {fs : McsRamfs} {node : Nat} {flags : UInt32}
    (hret : 0 ≤ (openDescriptor table fs node flags).2.2) :
    ∃ (fd offset : Nat), fd < mcsMaxOpenFiles ∧ (openDescriptor table fs node flags).2.2 = fd ∧
      (openDescriptor table fs node flags).1 fd = ⟨true, flags, offset, some node, true⟩ := by
  unfold openDescriptor at hret ⊢
  split
  case isTrue hdir =>
    rw [if_pos hdir] at hret
    exact absurd hret (Int.not_le.mpr (code_neg .eisdir))
  case isFalse hdir =>
    rw [if_neg hdir] at hret
    rcases mcsFdAlloc_cases table with hnone | ⟨fd, hfd, -, hsome⟩
    · rw [hnone] at hret
      exact absurd hret (Int.not_le.mpr (code_neg .enfile))
    · rw [hsome] at hret ⊢
      simp only [Function.update_self, Function.update_idem] at hret ⊢
      split
      case isTrue htrunc =>
        rw [if_pos htrunc] at hret
        split
        case isTrue hcan =>
          rw [if_pos hcan] at hret
          exact absurd hret (Int.not_le.mpr (code_neg .eacces))
        case isFalse hcan => exact ⟨fd, 0, hfd, rfl, Function.update_self ..⟩
      case isFalse htrunc => exact ⟨fd, _, hfd, rfl, Function.update_self ..⟩

theorem defaultFlags_of_canWrite {flags : UInt32} (h : mcsCanWrite flags = true) :
    defaultFlags flags = flags := by
  refine if_neg fun hnone => ?_
  have hbits : ∀ mask, (mcsORdonly ||| mcsOWronly ||| mcsORdwr) &&& mask = mask →
      flags &&& mask = 0 := by
    intro mask hmask
    rw [← hmask, ← UInt32.and_assoc, hnone, UInt32.zero_and]
  rw [mcsCanWrite, hbits mcsOWronly (by decide), hbits mcsORdwr (by decide)] at h
  exact absurd h (by decide)

theorem mcsFdGet_of_used {table : McsFdTable} {slot : Nat} (hslot : slot < mcsMaxOpenFiles)
    (hused : (table slot).used = true) : mcsFdGet table slot = some slot := by
  rw [mcsFdGet, if_neg (by rw [Int.toNat_natCast]; omega), Int.toNat_natCast, if_pos hused]

theorem open_append {w : VfsWorld} {n i : Nat} {path : List UInt8} {flags : UInt32}
    (hlookup : mcsRamfsLookup w.fs (some path) = .ok n) (hflags : AppendFlags flags)
    (hret : 0 ≤ (w.step (.vfsOpen i (some path) flags)).2.ret) :
    ∃ slot, OpenOn (w.step (.vfsOpen i (some path) flags)).1 n i
        (w.step (.vfsOpen i (some path) flags)).2.ret slot ∧
      ((w.step (.vfsOpen i (some path) flags)).1.tables i slot).flags = flags := by
  have hopen : mcsVfsOpen (w.tables i) w.fs (some path) flags =
      openDescriptor (w.tables i) w.fs n flags := by
    simp only [mcsVfsOpen, openNode, hlookup, defaultFlags_of_canWrite hflags.2.1]
  simp only [VfsWorld.step, hopen] at hret ⊢
  obtain ⟨fd, offset, hfd, hcode, hfile⟩ := openDescriptor_new hret
  rw [hcode]
  refine ⟨fd, ⟨?_, ?_⟩, ?_⟩
  · rw [tables_setTable]
    exact mcsFdGet_of_used hfd (by rw [hfile])
  · rw [tables_setTable, hfile]
  · rw [tables_setTable, hfile]

section Runs

variable {w w₀ : VfsWorld} {n : Nat}

theorem fileBytes_run {trace : List (VfsCall × VfsResult)}
    (hrun : Run (appendSystem n) w₀ trace w) (hsound : Sound w₀) (hpos : 0 < n)
    (hn : n < w₀.fs.nodeCount) :
    Sound w ∧ n < w.fs.nodeCount ∧
      fileBytes w.fs n = fileBytes w₀.fs n ++ appendedBytes n w₀ (trace.map Prod.fst) := by
  induction hrun with
  | nil w => exact ⟨hsound, hn, (List.append_nil _).symm⟩
  | @cons w w' u call result trace hallowed hstep _ ih =>
      have hnext : w.step call = (w', result) := Option.some.inj hstep
      have hsound' := hsound.step call
      have hn' := Nat.lt_of_lt_of_le hn (step_nodeCount hsound.inv call)
      have hbytes := fileBytes_step hsound hpos hn hallowed
      rw [hnext] at hsound' hn' hbytes
      obtain ⟨hsoundEnd, hnEnd, hend⟩ := ih hsound' hn'
      refine ⟨hsoundEnd, hnEnd, ?_⟩
      rw [hend, hbytes, List.map_cons, appendedBytes, hnext, List.append_assoc]

/-- Appends lose nothing: after any run in which the file is only written through
descriptors opened for appending, it holds its old bytes and then the buffers of the
successful writes in the order of the calls.  In every state, such a write of `len` bytes
returns `len` exactly if they fit, and otherwise it fails and leaves the file alone; and
`open` with these flags gives such a descriptor. -/
theorem run_append {fs : McsRamfs} {tables : Nat → McsFdTable}
    {before after : List (VfsCall × VfsResult)}
    (hbefore : Run callSystem (startWorld fs tables) before w₀) (hpos : 0 < n)
    (hn : n < w₀.fs.nodeCount) (hafter : Run (appendSystem n) w₀ after w) :
    fileBytes w.fs n = fileBytes w₀.fs n ++ appendedBytes n w₀ (after.map Prod.fst) ∧
      (∀ i fd slot buf len, OpenOn w n i fd slot → AppendFlags (w.tables i slot).flags →
        (buf.isNone = true → len = 0) →
        ((w.step (.vfsWrite i fd buf len)).2.ret = len ↔
          (w.fs.nodes n).size + len ≤ (w.fs.nodes n).dataCapacity) ∧
        ((w.step (.vfsWrite i fd buf len)).2.ret ≠ len →
          (w.step (.vfsWrite i fd buf len)).2.ret < 0 ∧
            SameFile w.fs (w.step (.vfsWrite i fd buf len)).1.fs n)) ∧
      ∀ i path flags, mcsRamfsLookup w.fs (some path) = .ok n → AppendFlags flags →
        0 ≤ (w.step (.vfsOpen i (some path) flags)).2.ret →
        ∃ slot, OpenOn (w.step (.vfsOpen i (some path) flags)).1 n i
            (w.step (.vfsOpen i (some path) flags)).2.ret slot ∧
          ((w.step (.vfsOpen i (some path) flags)).1.tables i slot).flags = flags := by
  obtain ⟨hsound, hn', hbytes⟩ := fileBytes_run hafter (sound_run hbefore) hpos hn
  refine ⟨hbytes, ?_, fun i path flags => open_append⟩
  intro i fd slot buf len hopen hflags hbuf
  have happend := step_append hsound hpos hn' hopen hflags hbuf
  rw [(hsound.inv.ramfs.file n hpos hn').dataCapacity]
  split at happend
  case isTrue hfits => exact ⟨⟨fun _ => hfits, fun _ => happend.1⟩, fun h => absurd happend.1 h⟩
  case isFalse hfull =>
    have hneg : (w.step (.vfsWrite i fd buf len)).2.ret < 0 := by
      rw [happend.1]
      exact code_neg .enospc
    refine ⟨⟨fun hret => ?_, fun hfits => absurd hfits hfull⟩, fun _ => ⟨hneg, ?_⟩⟩
    · omega
    · rw [happend.2]
      exact .refl _ n

/-- Two tables append to one file in turns; a seek in between has no effect on where the
bytes go, and a write that does not fit adds nothing. -/
def turnCalls : List VfsCall :=
  [.vfsWrite 0 0 (some fun _ => 1) 2, .vfsWrite 1 0 (some fun _ => 2) 1, .vfsLseek 0 0 0 0,
    .vfsWrite 0 0 (some fun _ => 3) 255, .vfsWrite 0 0 (some fun _ => 4) 1]

def twoTables : VfsWorld :=
  [.vfsOpen 0 (some [slash, 0x61]) (mcsOCreat ||| mcsOAppend ||| mcsOWronly),
    .vfsOpen 1 (some [slash, 0x61]) (mcsOAppend ||| mcsORdwr)].foldl
    (fun w call => (w.step call).1) freshWorld

theorem run_append_turnCalls :
    fileBytes (turnCalls.foldl (fun w call => (w.step call).1) twoTables).fs 1 = [1, 1, 2, 4] := by
  have hbefore : Run callSystem freshWorld
      [(.vfsOpen 0 (some [slash, 0x61]) (mcsOCreat ||| mcsOAppend ||| mcsOWronly), ⟨0, []⟩),
        (.vfsOpen 1 (some [slash, 0x61]) (mcsOAppend ||| mcsORdwr), ⟨0, []⟩)] twoTables :=
    .cons trivial rfl (.cons trivial rfl (.nil _))
  have hafter : Run (appendSystem 1) twoTables
      (turnCalls.zip [⟨2, []⟩, ⟨1, []⟩, ⟨0, []⟩, ⟨-28, []⟩, ⟨1, []⟩])
      (turnCalls.foldl (fun w call => (w.step call).1) twoTables) := by
    refine .cons ?_ rfl (.cons ?_ rfl (.cons trivial rfl (.cons ?_ rfl (.cons ?_ rfl (.nil _)))))
    all_goals
      rintro slot ⟨hget, -⟩
      cases hget
      decide
  rw [(run_append hbefore Nat.one_pos (by decide) hafter).1]
  decide

end Runs

end Mcsos.VfsAppend
