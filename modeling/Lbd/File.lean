import Lbd.Bytes

/-!
# Files

A file is read and written at absolute offsets. A write can fail because it
would grow the file past what the file system allows, or because a fault is
scheduled for it; a faulty write may leave a part of its data behind.
-/

namespace Lbd

/-- `MAX_RW_COUNT`: what one call to read or write transfers at most. -/
def maxRw : ℕ := 0x7ffff000

structure File where
  size : ℕ
  byte : ℕ → UInt8
  /-- A write past the end fills the hole with zeros. -/
  zeroBeyond : ∀ a, size ≤ a → byte a = 0
  capacity : ℕ
  /-- The number of bytes the `n`-th write stores before it fails. -/
  faults : ℕ → Option ℕ
  writes : ℕ
  /-- Some write has failed. -/
  failed : Bool

namespace File

variable {f : File} {off n : ℕ} {data bs cs : List UInt8}

def empty (capacity : ℕ) (faults : ℕ → Option ℕ) : File where
  size := 0
  byte _ := 0
  zeroBeyond _ _ := rfl
  capacity := capacity
  faults := faults
  writes := 0
  failed := false

abbrev slice (f : File) (off n : ℕ) : List UInt8 := window f.byte off n

/-- A full read; `none` when the file ends before. -/
def readAt (f : File) (off n : ℕ) : Option (List UInt8) :=
  if off + n ≤ f.size then some (f.slice off n) else none

/-- `kernel_read` where the caller takes no less than all `n` bytes. -/
def kernelRead (f : File) (off n : ℕ) : Option (List UInt8) :=
  if maxRw < n then none else f.readAt off n

/-- A full read by a program: no bytes are always there, and an offset that is negative as an
`int64` is refused. -/
def readFull (f : File) (off n : ℕ) : Option (List UInt8) :=
  if 2 ^ 63 ≤ off then none else if n = 0 then some [] else f.readAt off n

/-- The file after `data` was stored at `off`. -/
def put (f : File) (off : ℕ) (data : List UInt8) : File where
  size := if data = [] then f.size else max f.size (off + data.length)
  byte := overlay f.byte off data
  zeroBeyond a ha := by
    split_ifs at ha with hd
    · rw [hd, overlay_of_not (by simp; omega), f.zeroBeyond a ha]
    · rw [overlay_of_not (by omega), f.zeroBeyond a (by omega)]
  capacity := f.capacity
  faults := f.faults
  writes := f.writes + 1
  failed := f.failed

/-- The file after a failed write that stored nothing. -/
def skip (f : File) : File := { f with writes := f.writes + 1, failed := true }

def writeAt (f : File) (off : ℕ) (data : List UInt8) : Bool × File :=
  match f.faults f.writes with
  | some n =>
    (false, if off + n ≤ f.capacity then { f.put off (data.take n) with failed := true }
      else f.skip)
  | none => if off + data.length ≤ f.capacity then (true, f.put off data) else (false, f.skip)

/-- `ftruncate` to a size that is not smaller. -/
def extend (f : File) (size : ℕ) : File where
  size := max f.size size
  byte := f.byte
  zeroBeyond a ha := f.zeroBeyond a (by omega)
  capacity := f.capacity
  faults := f.faults
  writes := f.writes
  failed := f.failed

def truncate (f : File) (size : ℕ) : File where
  size := size
  byte := fun a => if a < size then f.byte a else 0
  zeroBeyond _ ha := if_neg (not_lt.mpr ha)
  capacity := f.capacity
  faults := f.faults
  writes := f.writes
  failed := f.failed

theorem writeAt_snd_of_fst (h : (f.writeAt off data).1 = true) :
    (f.writeAt off data).2 = f.put off data := by
  unfold writeAt at h ⊢
  split at h
  · cases h
  · split_ifs at h ⊢
    rfl

def NoFaults (f : File) : Prop := ∀ i, f.faults i = none

theorem NoFaults.writeAt (h : f.NoFaults) (off : ℕ) (data : List UInt8) :
    f.writeAt off data =
      if off + data.length ≤ f.capacity then (true, f.put off data) else (false, f.skip) := by
  unfold File.writeAt
  rw [h]

/-- A write that fails stores nothing. -/
def Clean (f : File) : Prop := ∀ i n, f.faults i = some n → n = 0

/-- The next write goes through, if it is for `n` bytes at `off`. -/
def Accepts (f : File) (off n : ℕ) : Prop := f.faults f.writes = none ∧ off + n ≤ f.capacity

instance : Decidable (f.Accepts off n) := inferInstanceAs (Decidable (_ ∧ _))

theorem NoFaults.clean (h : f.NoFaults) : f.Clean := fun i n hi => by
  rw [h i] at hi
  cases hi

@[simp] theorem put_nil : { f.put off [] with failed := true } = f.skip := by
  have hbyte : overlay f.byte off [] = f.byte := funext fun _ => overlay_of_not (by simp; omega)
  simp [put, skip, hbyte]

theorem Clean.writeAt (h : f.Clean) (off : ℕ) (data : List UInt8) :
    f.writeAt off data =
      if f.Accepts off data.length then (true, f.put off data) else (false, f.skip) := by
  unfold File.writeAt
  split
  · rename_i n hw
    obtain rfl := h _ n hw
    have hno : ¬ f.Accepts off data.length := fun ha => nomatch hw.symm.trans ha.1
    rw [if_neg hno, List.take_zero, put_nil, ite_self]
  · rename_i hw
    exact if_congr (by simp [Accepts, hw]) rfl rfl

theorem Accepts.writeAt (h : f.Accepts off data.length) :
    f.writeAt off data = (true, f.put off data) := by
  unfold File.writeAt
  rw [h.1]
  exact if_pos h.2

theorem Clean.put (h : f.Clean) : (f.put off data).Clean := h

theorem Clean.skip (h : f.Clean) : f.skip.Clean := h

@[simp] theorem put_capacity : (f.put off data).capacity = f.capacity := rfl

@[simp] theorem skip_capacity : f.skip.capacity = f.capacity := rfl

@[simp] theorem skip_byte : f.skip.byte = f.byte := rfl

@[simp] theorem skip_size : f.skip.size = f.size := rfl

@[simp] theorem extend_byte : (f.extend n).byte = f.byte := rfl

@[simp] theorem extend_capacity : (f.extend n).capacity = f.capacity := rfl

theorem NoFaults.put (h : f.NoFaults) : (f.put off data).NoFaults := h

theorem NoFaults.skip (h : f.NoFaults) : f.skip.NoFaults := h

theorem size_le_put : f.size ≤ (f.put off data).size := by
  show f.size ≤ if data = [] then f.size else max f.size (off + data.length)
  split_ifs <;> omega

theorem put_size_le (h : f.size ≤ f.capacity) (hfits : off + data.length ≤ f.capacity) :
    (f.put off data).size ≤ f.capacity := by
  show (if data = [] then f.size else max f.size (off + data.length)) ≤ f.capacity
  split_ifs <;> omega

theorem put_size_of_ne_nil (h : data ≠ []) :
    (f.put off data).size = max f.size (off + data.length) := if_neg h

@[simp] theorem put_byte : (f.put off data).byte = overlay f.byte off data := rfl

/-- The bytes `bs` stand at `off`, before the end of the file. -/
def Reads (f : File) (off : ℕ) (bs : List UInt8) : Prop :=
  off + bs.length ≤ f.size ∧ At f.byte off bs

theorem Reads.readAt (h : f.Reads off bs) (hn : bs.length = n) : f.readAt off n = some bs := by
  subst hn
  rw [File.readAt, if_pos h.1]
  exact congrArg some h.2

theorem kernelRead_of_readAt (hn : n ≤ maxRw) : f.kernelRead off n = f.readAt off n :=
  if_neg (not_lt.mpr hn)

theorem kernelRead_eq_some :
    f.kernelRead off n = some bs ↔ n ≤ maxRw ∧ f.readAt off n = some bs := by
  unfold kernelRead
  split_ifs with hlong
  · simp [hlong]
  · simp [not_lt.mp hlong]

theorem length_readFull (h : f.readFull off n = some bs) : bs.length = n := by
  unfold readFull readAt at h
  split_ifs at h with h1 h2 h3
  · cases h
    exact h2.symm
  · cases h
    exact length_window

theorem readFull_zero (f : File) (h : off < 2 ^ 63) : f.readFull off 0 = some [] := by
  rw [readFull, if_neg (not_le.mpr h), if_pos rfl]

theorem readFull_negative (f : File) (n : ℕ) (h : 2 ^ 63 ≤ off) : f.readFull off n = none :=
  if_pos h

theorem Reads.congr {g : File} (h : f.Reads off bs) (hsize : f.size ≤ g.size)
    (hbyte : ∀ a, off ≤ a → a < off + bs.length → g.byte a = f.byte a) : g.Reads off bs :=
  ⟨h.1.trans hsize, h.2.congr hbyte⟩

theorem reads_put (h : data ≠ []) : (f.put off data).Reads off data := by
  refine ⟨?_, at_overlay⟩
  rw [put_size_of_ne_nil h]
  exact le_max_right _ _

theorem reads_append : f.Reads off (bs ++ cs) ↔ f.Reads off bs ∧ f.Reads (off + bs.length) cs := by
  unfold Reads
  rw [at_append, List.length_append]
  constructor
  · rintro ⟨h, h1, h2⟩
    exact ⟨⟨by omega, h1⟩, by omega, h2⟩
  · rintro ⟨⟨-, h1⟩, h, h2⟩
    exact ⟨by omega, h1, h2⟩

end File

end Lbd
