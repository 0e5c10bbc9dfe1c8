import Lbd.LastWins
import Lbd.LogName
import Lbd.Words

/-!
# Log segments and their replay

The decoded form of a log file, what `NewReader` and `Next` return, and the bytes
a device has once the segments of a listing have been applied to it.
-/

namespace Lbd

/-- `Entry.Op`: `"W"`, `"T"` or some other text. -/
inductive EntryOp where
  | write
  | trim
  | other (text : String)
deriving DecidableEq, Repr

structure Entry where
  op : EntryOp
  timestampNS : ℕ
  sequence : ℕ
  block : ℕ
  length : ℕ
  checksum : UInt32
  data : List UInt8
deriving DecidableEq, Repr

structure Header where
  version : ℕ
  blockSize : ℕ
  segmentLabel : Name
  deviceSize : ℕ
  backingPath : String
deriving DecidableEq, Repr

structure Segment where
  header : Header
  entries : List Entry
deriving DecidableEq, Repr

namespace Entry

def isWrite (e : Entry) : Bool := e.op = .write

def isTrim (e : Entry) : Bool := e.op = .trim

/-- The block count the compactor works with: at least one. -/
def numBlocks (blockSize : ℕ) (e : Entry) : ℕ :=
  let n := e.length / blockSize
  if n = 0 then 1 else n

/-- What the entry stores at byte `x`, if it touches it. -/
def byteAt (blockSize : ℕ) (e : Entry) (x : ℕ) : Option UInt8 :=
  match e.op with
  | .write => if e.block * blockSize ≤ x then e.data[x - e.block * blockSize]? else none
  | .trim =>
    if e.block * blockSize ≤ x ∧ x < e.block * blockSize + e.length then some 0 else none
  | .other _ => none

/-- One entry applied to the bytes of the device. -/
def apply (blockSize : ℕ) (m : ℕ → UInt8) (e : Entry) : ℕ → UInt8 :=
  fun x => (e.byteAt blockSize x).getD (m x)

/-- A write or trim of whole blocks, a write with all its data. -/
structure Valid (blockSize : ℕ) (e : Entry) : Prop where
  op : e.op = .write ∨ e.op = .trim
  pos : 0 < e.length
  dvd : blockSize ∣ e.length
  fits : e.length < 2 ^ 32
  data : e.op = .write → e.data.length = e.length

instance (blockSize : ℕ) (e : Entry) : Decidable (e.Valid blockSize) :=
  decidable_of_iff
    ((e.op = .write ∨ e.op = .trim) ∧ 0 < e.length ∧ blockSize ∣ e.length ∧ e.length < 2 ^ 32 ∧
      (e.op = .write → e.data.length = e.length))
    ⟨fun ⟨h1, h2, h3, h4, h5⟩ => ⟨h1, h2, h3, h4, h5⟩,
      fun h => ⟨h.op, h.pos, h.dvd, h.fits, h.data⟩⟩

/-- The block range ends below `2^64`. -/
def NoWrap (blockSize : ℕ) (e : Entry) : Prop := e.block + e.numBlocks blockSize < W64

instance (blockSize : ℕ) (e : Entry) : Decidable (e.NoWrap blockSize) :=
  inferInstanceAs (Decidable (_ < _))

def Covers (blockSize : ℕ) (e : Entry) (b : ℕ) : Prop :=
  e.block ≤ b ∧ b < e.block + e.numBlocks blockSize

instance (blockSize : ℕ) (e : Entry) (b : ℕ) : Decidable (e.Covers blockSize b) :=
  inferInstanceAs (Decidable (_ ∧ _))

variable {bs : ℕ} {e : Entry}

theorem numBlocks_pos : 0 < e.numBlocks bs := by
  unfold numBlocks
  dsimp only
  split_ifs with hz
  · exact one_pos
  · exact Nat.pos_of_ne_zero hz

theorem Valid.blockSize_pos (h : e.Valid bs) : 0 < bs := by
  rcases Nat.eq_zero_or_pos bs with rfl | hpos
  · have := Nat.eq_zero_of_zero_dvd h.dvd
    have := h.pos
    omega
  · exact hpos

theorem Valid.numBlocks_mul (h : e.Valid bs) : e.numBlocks bs * bs = e.length := by
  have hdiv : e.length / bs * bs = e.length := Nat.div_mul_cancel h.dvd
  unfold numBlocks
  dsimp only
  split_ifs with hz
  · rw [hz] at hdiv
    have := h.pos
    omega
  · exact hdiv

theorem Valid.mem_range_iff (h : e.Valid bs) (x : ℕ) :
    (e.block * bs ≤ x ∧ x < e.block * bs + e.length) ↔ e.Covers bs (x / bs) := by
  unfold Covers
  rw [Nat.le_div_iff_mul_le h.blockSize_pos, Nat.div_lt_iff_lt_mul h.blockSize_pos,
    Nat.add_mul, h.numBlocks_mul]

theorem Valid.byteAt_eq (h : e.Valid bs) (x : ℕ) :
    e.byteAt bs x =
      if e.Covers bs (x / bs) then
        if e.op = .write then e.data[x - e.block * bs]? else some 0
      else none := by
  unfold byteAt
  rcases h.op with hop | hop <;> simp only [hop, reduceCtorEq, if_true, if_false]
  · have hd := h.data hop
    simp only [← h.mem_range_iff]
    split_ifs with h1 h2 h2
    · rfl
    · rw [List.getElem?_eq_none_iff]
      omega
    · omega
    · rfl
  · simp only [← h.mem_range_iff]

theorem Valid.byteAt_eq_none (h : e.Valid bs) (x : ℕ) :
    e.byteAt bs x = none ↔ ¬ e.Covers bs (x / bs) := by
  rw [h.byteAt_eq]
  split_ifs with hc hop
  · have hx := (h.mem_range_iff x).mpr hc
    simp only [List.getElem?_eq_none_iff, h.data hop, hc, not_true_eq_false, iff_false]
    omega
  · simp [hc]
  · simp [hc]

end Entry

namespace Segment

def apply (m : ℕ → UInt8) (s : Segment) : ℕ → UInt8 :=
  s.entries.foldl (Entry.apply s.header.blockSize) m

/-- What the whole segment leaves at byte `x`, if it touches it. -/
def byteAt (s : Segment) (x : ℕ) : Option UInt8 :=
  lastSome (s.entries.map fun e => e.byteAt s.header.blockSize x)

def Valid (blockSize : ℕ) (s : Segment) : Prop :=
  s.header.blockSize = blockSize ∧ ∀ e ∈ s.entries, e.Valid blockSize

def NoWrap (s : Segment) : Prop := ∀ e ∈ s.entries, e.NoWrap s.header.blockSize

instance (blockSize : ℕ) (s : Segment) : Decidable (s.Valid blockSize) :=
  inferInstanceAs (Decidable (_ ∧ _))

instance (s : Segment) : Decidable s.NoWrap := inferInstanceAs (Decidable (∀ _ ∈ _, _))

def Covers (s : Segment) (b : ℕ) : Prop := ∃ e ∈ s.entries, e.Covers s.header.blockSize b

theorem foldl_apply (bs : ℕ) (es : List Entry) (m : ℕ → UInt8) (x : ℕ) :
    es.foldl (Entry.apply bs) m x = (lastSome (es.map fun e => e.byteAt bs x)).getD (m x) := by
  induction es generalizing m with
  | nil => rfl
  | cons e es ih =>
    rw [List.foldl_cons, ih, List.map_cons, lastSome_cons]
    cases lastSome (es.map fun e => e.byteAt bs x) <;> simp [Entry.apply]

theorem apply_eq (m : ℕ → UInt8) (s : Segment) (x : ℕ) :
    s.apply m x = (s.byteAt x).getD (m x) :=
  foldl_apply _ _ _ _

theorem Valid.byteAt_eq_none {bs : ℕ} {s : Segment} (h : s.Valid bs) (x : ℕ) :
    s.byteAt x = none ↔ ¬ s.Covers (x / bs) := by
  unfold byteAt Covers
  rw [lastSome_eq_none, h.1]
  simp only [List.mem_map, forall_exists_index, and_imp, forall_apply_eq_imp_iff₂, not_exists,
    not_and]
  constructor <;> intro hall e he
  · exact ((h.2 e he).byteAt_eq_none x).mp (hall e he)
  · exact ((h.2 e he).byteAt_eq_none x).mpr (hall e he)

end Segment

/-- The bytes obtained by applying every segment, in the order given, to an all-zero device. -/
def replay (segs : List (Name × Segment)) : ℕ → UInt8 :=
  segs.foldl (fun m s => s.2.apply m) fun _ => 0

theorem replay_eq (segs : List (Name × Segment)) (x : ℕ) :
    replay segs x = (lastSome (segs.map fun s => s.2.byteAt x)).getD 0 := by
  have h : ∀ m : ℕ → UInt8, segs.foldl (fun m s => s.2.apply m) m x =
      (lastSome (segs.map fun s => s.2.byteAt x)).getD (m x) := by
    induction segs with
    | nil => intro m; rfl
    | cons s segs ih =>
      intro m
      rw [List.foldl_cons, ih, List.map_cons, lastSome_cons]
      cases lastSome (segs.map fun s => s.2.byteAt x) <;> simp [Segment.apply_eq]
  exact h _

end Lbd
