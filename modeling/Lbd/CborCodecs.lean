import Lbd.CborRead
import Lbd.Words

/-!
# The CBOR head, five times

The head of an item is written by `cbor_enc_head` in the module and by `cbor_write_head` in
`lbdctl`, and read by `cbor_dec_head`, by `cbor_read_head` from a file and by the two macros
`BUF_HEAD` and `BUF_HEAD2`. Each is transcribed on its own here; they agree with each other and with
`encHead` and `decHead`, which the rest of the development uses.
-/

namespace Lbd.Cbor

def ENOSPC : ℤ := 28

/-- `struct cbor_enc`; `buf` is the memory from the start of the buffer on, beyond its
capacity too. -/
structure CborEnc where
  buf : ℕ → UInt8
  pos : ℕ
  cap : ℕ
  /-- sticky `-ENOSPC` -/
  err : ℤ

def cborEncInit (buf : ℕ → UInt8) (cap : ℕ) : CborEnc := ⟨buf, 0, cap, 0⟩

def cborEncLen (e : CborEnc) : ℕ := e.pos

def cborPut (e : CborEnc) (b : UInt8) : CborEnc :=
  if e.err ≠ 0 then e
  else if e.cap ≤ e.pos then { e with err := -ENOSPC }
  else { e with buf := overlay e.buf e.pos [b], pos := e.pos + 1 }

def cborEncHead (e : CborEnc) (major val : ℕ) : CborEnc :=
  let mt := UInt8.ofNat (major <<< 5)
  if val < 24 then cborPut e (mt ||| UInt8.ofNat val)
  else if val ≤ 0xFF then
    let e := cborPut e (mt ||| 24)
    cborPut e (UInt8.ofNat val)
  else if val ≤ 0xFFFF then
    let e := cborPut e (mt ||| 25)
    let e := cborPut e (UInt8.ofNat (val >>> 8))
    cborPut e (UInt8.ofNat val)
  else if val ≤ 0xFFFFFFFF then
    let e := cborPut e (mt ||| 26)
    let e := cborPut e (UInt8.ofNat (val >>> 24))
    let e := cborPut e (UInt8.ofNat (val >>> 16))
    let e := cborPut e (UInt8.ofNat (val >>> 8))
    cborPut e (UInt8.ofNat val)
  else
    let e := cborPut e (mt ||| 27)
    let e := cborPut e (UInt8.ofNat (val >>> 56))
    let e := cborPut e (UInt8.ofNat (val >>> 48))
    let e := cborPut e (UInt8.ofNat (val >>> 40))
    let e := cborPut e (UInt8.ofNat (val >>> 32))
    let e := cborPut e (UInt8.ofNat (val >>> 24))
    let e := cborPut e (UInt8.ofNat (val >>> 16))
    let e := cborPut e (UInt8.ofNat (val >>> 8))
    cborPut e (UInt8.ofNat val)

def cborEncMap (e : CborEnc) (count : ℕ) : CborEnc := cborEncHead e 5 count

def cborEncUint (e : CborEnc) (val : ℕ) : CborEnc := cborEncHead e 0 val

def cborEncText (e : CborEnc) (s : List UInt8) : CborEnc :=
  s.foldl cborPut (cborEncHead e 3 s.length)

/-- The key is an array with a NUL in it; `strlen` stops there. -/
def cborEncTextKey (e : CborEnc) (key : List UInt8) : CborEnc := cborEncText e (cString key)

def cborEncBytesHdr (e : CborEnc) (len : ℕ) : CborEnc := cborEncHead e 2 len

/-- `cbor_write_head`: the memory at `buf` afterwards, and the number of bytes it reports. -/
def cborWriteHead (buf : ℕ → UInt8) (major val : ℕ) : (ℕ → UInt8) × ℕ :=
  let mt := UInt8.ofNat (major <<< 5)
  if val < 24 then (overlay buf 0 [mt ||| UInt8.ofNat val], 1)
  else if val ≤ 0xFF then (overlay buf 0 [mt ||| 24, UInt8.ofNat val], 2)
  else if val ≤ 0xFFFF then
    (overlay buf 0 [mt ||| 25, UInt8.ofNat (val >>> 8), UInt8.ofNat val], 3)
  else if val ≤ 0xFFFFFFFF then
    (overlay buf 0 [mt ||| 26, UInt8.ofNat (val >>> 24), UInt8.ofNat (val >>> 16),
      UInt8.ofNat (val >>> 8), UInt8.ofNat val], 5)
  else
    (overlay buf 0 [mt ||| 27, UInt8.ofNat (val >>> 56), UInt8.ofNat (val >>> 48),
      UInt8.ofNat (val >>> 40), UInt8.ofNat (val >>> 32), UInt8.ofNat (val >>> 24),
      UInt8.ofNat (val >>> 16), UInt8.ofNat (val >>> 8), UInt8.ofNat val], 9)

/-- `((uint64_t)b[0] << 8) | b[1]` -/
def word16 (b : List UInt8) : ℕ := (b.getD 0 0).toNat <<< 8 ||| (b.getD 1 0).toNat

def word32 (b : List UInt8) : ℕ :=
  (b.getD 0 0).toNat <<< 24 ||| (b.getD 1 0).toNat <<< 16 ||| (b.getD 2 0).toNat <<< 8 |||
    (b.getD 3 0).toNat

def word64 (b : List UInt8) : ℕ :=
  (b.getD 0 0).toNat <<< 56 ||| (b.getD 1 0).toNat <<< 48 ||| (b.getD 2 0).toNat <<< 40 |||
    (b.getD 3 0).toNat <<< 32 ||| (b.getD 4 0).toNat <<< 24 ||| (b.getD 5 0).toNat <<< 16 |||
    (b.getD 6 0).toNat <<< 8 ||| (b.getD 7 0).toNat

/-- A buffer whose length is a `size_t`. -/
structure Buffer where
  bytes : List UInt8
  fits : bytes.length < W64

/-- How a reader of a buffer ends without a value: it refuses the bytes (`-EINVAL` in the module,
-1 in `lbdctl`), or it reads behind the last of them. -/
inductive BufStop
  | refused
  | overrun
deriving DecidableEq, Repr

namespace Buffer

def len (b : Buffer) : ℕ := b.bytes.length

/-- The bytes `buf[pos]`, …, `buf[pos + n - 1]`. -/
def read (b : Buffer) (pos n : ℕ) : Except BufStop (List UInt8) :=
  if pos + n ≤ b.len then .ok ((b.bytes.drop pos).take n) else .error .overrun

end Buffer

/-- `cbor_dec_head`: major type and value, and the position behind them. -/
def cborDecHead (d : Buffer) (pos : ℕ) : Except BufStop ((ℕ × ℕ) × ℕ) := do
  if d.len ≤ pos then .error .refused
  else
    let ib := ((← d.read pos 1).getD 0 0).toNat
    let pos := pos + 1
    let major := ib >>> 5
    let ai := ib &&& 0x1F
    if ai < 24 then .ok ((major, ai), pos)
    else if ai = 24 then
      if d.len < (pos + 1) % W64 then .error .refused
      else
        let b ← d.read pos 1
        .ok ((major, (b.getD 0 0).toNat), (pos + 1) % W64)
    else if ai = 25 then
      if d.len < (pos + 2) % W64 then .error .refused
      else
        let b ← d.read pos 2
        .ok ((major, word16 b), (pos + 2) % W64)
    else if ai = 26 then
      if d.len < (pos + 4) % W64 then .error .refused
      else
        let b ← d.read pos 4
        .ok ((major, word32 b), (pos + 4) % W64)
    else if ai = 27 then
      if d.len < (pos + 8) % W64 then .error .refused
      else
        let b ← d.read pos 8
        .ok ((major, word64 b), (pos + 8) % W64)
    else .error .refused

/-- `BUF_HEAD` of `decode_watch_event` -/
def bufHead (buf : Buffer) (pos : ℕ) : Except BufStop ((ℕ × ℕ) × ℕ) := do
  if buf.len ≤ pos then .error .refused
  else
    let ib := ((← buf.read pos 1).getD 0 0).toNat
    let pos := pos + 1
    let major := ib >>> 5
    let ai := ib &&& 0x1F
    if ai < 24 then .ok ((major, ai), pos)
    else if ai = 24 then
      if buf.len < (pos + 1) % W64 then .error .refused
      else
        let b ← buf.read pos 1
        .ok ((major, (b.getD 0 0).toNat), (pos + 1) % W64)
    else if ai = 25 then
      if buf.len < (pos + 2) % W64 then .error .refused
      else
        let b ← buf.read pos 2
        .ok ((major, word16 b), (pos + 2) % W64)
    else if ai = 26 then
      if buf.len < (pos + 4) % W64 then .error .refused
      else
        let b ← buf.read pos 4
        .ok ((major, word32 b), (pos + 4) % W64)
    else if ai = 27 then
      if buf.len < (pos + 8) % W64 then .error .refused
      else
        let b ← buf.read pos 8
        .ok ((major, word64 b), (pos + 8) % W64)
    else .error .refused

/-- `BUF_HEAD2` of `decode_miss_event` -/
def bufHead2 (buf : Buffer) (pos : ℕ) : Except BufStop ((ℕ × ℕ) × ℕ) := do
  if buf.len ≤ pos then .error .refused
  else
    let ib := ((← buf.read pos 1).getD 0 0).toNat
    let pos := pos + 1
    let major := ib >>> 5
    let ai := ib &&& 0x1F
    if ai < 24 then .ok ((major, ai), pos)
    else if ai = 24 then
      if buf.len < (pos + 1) % W64 then .error .refused
      else
        let b ← buf.read pos 1
        .ok ((major, (b.getD 0 0).toNat), (pos + 1) % W64)
    else if ai = 25 then
      if buf.len < (pos + 2) % W64 then .error .refused
      else
        let b ← buf.read pos 2
        .ok ((major, word16 b), (pos + 2) % W64)
    else if ai = 26 then
      if buf.len < (pos + 4) % W64 then .error .refused
      else
        let b ← buf.read pos 4
        .ok ((major, word32 b), (pos + 4) % W64)
    else if ai = 27 then
      if buf.len < (pos + 8) % W64 then .error .refused
      else
        let b ← buf.read pos 8
        .ok ((major, word64 b), (pos + 8) % W64)
    else .error .refused

theorem bufHead_eq : bufHead = cborDecHead := rfl

theorem bufHead2_eq : bufHead2 = cborDecHead := rfl

/-- The codes -1 and -2 of `cbor_read_head`. -/
inductive ReadStop
  | eof
  | error
deriving DecidableEq, Repr

/-- `read_exact` at offset `off` of a file: no byte is the end, too few are an error. -/
def readExact (file : List UInt8) (off n : ℕ) : Except ReadStop (List UInt8 × ℕ) :=
  if off + n ≤ file.length then .ok ((file.drop off).take n, off + n)
  else if file.length ≤ off then .error .eof
  else .error .error

/-- `cbor_read_head` from offset `off` of a file; every failure behind the initial byte is -2. -/
def cborReadHead (file : List UInt8) (off : ℕ) : Except ReadStop ((ℕ × ℕ) × ℕ) := do
  let (b, off) ← readExact file off 1
  let ib := (b.getD 0 0).toNat
  let major := ib >>> 5
  let ai := ib &&& 0x1F
  if ai < 24 then .ok ((major, ai), off)
  else if ai = 24 then
    match readExact file off 1 with
    | .error _ => .error .error
    | .ok (b, off) => .ok ((major, (b.getD 0 0).toNat), off)
  else if ai = 25 then
    match readExact file off 2 with
    | .error _ => .error .error
    | .ok (b, off) => .ok ((major, word16 b), off)
  else if ai = 26 then
    match readExact file off 4 with
    | .error _ => .error .error
    | .ok (b, off) => .ok ((major, word32 b), off)
  else if ai = 27 then
    match readExact file off 8 with
    | .error _ => .error .error
    | .ok (b, off) => .ok ((major, word64 b), off)
  else .error .error

theorem initial_or (major : ℕ) {v : ℕ} (hv : v < 32) :
    UInt8.ofNat (major <<< 5) ||| UInt8.ofNat v = UInt8.ofNat (32 * major + v) := by
  have hmajor : major * 32 % 256 = (major % 8) <<< 5 := by
    rw [Nat.shiftLeft_eq]
    omega
  apply UInt8.toNat_inj.mp
  rw [UInt8.toNat_or, UInt8.toNat_ofNat', UInt8.toNat_ofNat', UInt8.toNat_ofNat',
    Nat.shiftLeft_eq, show 2 ^ 5 = 32 from rfl, show 2 ^ 8 = 256 from rfl, hmajor,
    Nat.mod_eq_of_lt (show v < 256 by omega), ← Nat.shiftLeft_add_eq_or_of_lt hv, Nat.shiftLeft_eq]
  omega

theorem shiftLeft_or_shiftLeft (v c k : ℕ) : v <<< (k + 8) ||| c <<< k = (v <<< 8 ||| c) <<< k := by
  rw [Nat.shiftLeft_or_distrib, ← Nat.shiftLeft_add, Nat.add_comm 8 k]

theorem shiftLeft_or_byte (v : ℕ) (b : UInt8) : v <<< 8 ||| b.toNat = 256 * v + b.toNat := by
  rw [← Nat.shiftLeft_add_eq_or_of_lt (show b.toNat < 2 ^ 8 from b.toNat_lt), Nat.shiftLeft_eq]
  omega

theorem byte_eq {b : List UInt8} (h : b.length = 1) : (b.getD 0 0).toNat = beNat b := by
  obtain ⟨b0, rfl⟩ := List.length_eq_one_iff.mp h
  simp [beNat]

theorem word16_eq {b : List UInt8} (h : b.length = 2) : word16 b = beNat b := by
  obtain ⟨b0, b1, rfl⟩ := List.length_eq_two.mp h
  simp [word16, shiftLeft_or_byte, beNat]

theorem word32_eq {b : List UInt8} (h : b.length = 4) : word32 b = beNat b := by
  match b, h with
  | [b0, b1, b2, b3], _ =>
    simp only [word32, List.getD_cons_zero, List.getD_cons_succ, shiftLeft_or_shiftLeft _ _ 16,
      shiftLeft_or_shiftLeft _ _ 8, shiftLeft_or_byte]
    simp [beNat]

theorem word64_eq {b : List UInt8} (h : b.length = 8) : word64 b = beNat b := by
  match b, h with
  | [b0, b1, b2, b3, b4, b5, b6, b7], _ =>
    simp only [word64, List.getD_cons_zero, List.getD_cons_succ, shiftLeft_or_shiftLeft _ _ 48,
      shiftLeft_or_shiftLeft _ _ 40, shiftLeft_or_shiftLeft _ _ 32, shiftLeft_or_shiftLeft _ _ 24,
      shiftLeft_or_shiftLeft _ _ 16, shiftLeft_or_shiftLeft _ _ 8, shiftLeft_or_byte]
    simp [beNat]

theorem beBytes_two (n : ℕ) : beBytes 2 n = [UInt8.ofNat (n >>> 8), UInt8.ofNat n] := by
  simp [beBytes, Nat.shiftRight_eq_div_pow]

theorem beBytes_four (n : ℕ) : beBytes 4 n =
    [UInt8.ofNat (n >>> 24), UInt8.ofNat (n >>> 16), UInt8.ofNat (n >>> 8), UInt8.ofNat n] := by
  simp [beBytes, Nat.shiftRight_eq_div_pow, Nat.div_div_eq_div_mul]

theorem beBytes_eight (n : ℕ) : beBytes 8 n =
    [UInt8.ofNat (n >>> 56), UInt8.ofNat (n >>> 48), UInt8.ofNat (n >>> 40),
      UInt8.ofNat (n >>> 32), UInt8.ofNat (n >>> 24), UInt8.ofNat (n >>> 16),
      UInt8.ofNat (n >>> 8), UInt8.ofNat n] := by
  simp [beBytes, Nat.shiftRight_eq_div_pow, Nat.div_div_eq_div_mul]

theorem encHead_eq (major val : ℕ) : encHead major val =
    let mt := UInt8.ofNat (major <<< 5)
    if val < 24 then [mt ||| UInt8.ofNat val]
    else if val ≤ 0xFF then [mt ||| 24, UInt8.ofNat val]
    else if val ≤ 0xFFFF then [mt ||| 25, UInt8.ofNat (val >>> 8), UInt8.ofNat val]
    else if val ≤ 0xFFFFFFFF then
      [mt ||| 26, UInt8.ofNat (val >>> 24), UInt8.ofNat (val >>> 16), UInt8.ofNat (val >>> 8),
        UInt8.ofNat val]
    else
      [mt ||| 27, UInt8.ofNat (val >>> 56), UInt8.ofNat (val >>> 48), UInt8.ofNat (val >>> 40),
        UInt8.ofNat (val >>> 32), UInt8.ofNat (val >>> 24), UInt8.ofNat (val >>> 16),
        UInt8.ofNat (val >>> 8), UInt8.ofNat val] := by
  unfold encHead
  dsimp only
  split_ifs with h
  · rw [initial_or major (show val < 32 by omega)]
  · exact congrArg (· :: _) (initial_or major (show 24 < 32 by norm_num)).symm
  · rw [beBytes_two]
    exact congrArg (· :: _) (initial_or major (show 25 < 32 by norm_num)).symm
  · rw [beBytes_four]
    exact congrArg (· :: _) (initial_or major (show 26 < 32 by norm_num)).symm
  · rw [beBytes_eight]
    exact congrArg (· :: _) (initial_or major (show 27 < 32 by norm_num)).symm

theorem cborEncHead_eq (e : CborEnc) (major val : ℕ) :
    cborEncHead e major val = (encHead major val).foldl cborPut e := by
  rw [encHead_eq]
  unfold cborEncHead
  dsimp only
  split_ifs <;> rfl

theorem cborWriteHead_eq (buf : ℕ → UInt8) (major val : ℕ) :
    cborWriteHead buf major val =
      (overlay buf 0 (encHead major val), (encHead major val).length) := by
  rw [encHead_eq]
  unfold cborWriteHead
  dsimp only
  split_ifs <;> rfl

theorem length_encHead_le_of_isHead {major val : ℕ} {hd : List UInt8} (h : IsHead major val hd) :
    (encHead major val).length ≤ hd.length := by
  obtain ⟨-, ⟨hval, rfl⟩ | ⟨ai, arg, hk, rfl, rfl⟩⟩ := h
  · rw [length_encHead_of_lt hval]
    rfl
  · have hlt := beNat_lt arg
    simp only [widths, List.mem_cons, Prod.mk.injEq, List.not_mem_nil, or_false] at hk
    unfold encHead
    dsimp only
    rcases hk with ⟨-, hk⟩ | ⟨-, hk⟩ | ⟨-, hk⟩ | ⟨-, hk⟩ <;> rw [hk] at hlt <;>
      split_ifs <;> simp [hk] <;> omega

inductive EncCall
  | head (major val : ℕ)
  | map (count : ℕ)
  | uint (val : ℕ)
  | text (s : List UInt8)
  | textKey (key : List UInt8)
  | bytesHdr (len : ℕ)

namespace EncCall

def run (e : CborEnc) : EncCall → CborEnc
  | head major val => cborEncHead e major val
  | map count => cborEncMap e count
  | uint val => cborEncUint e val
  | text s => cborEncText e s
  | textKey key => cborEncTextKey e key
  | bytesHdr len => cborEncBytesHdr e len

/-- What a call is to append. -/
def encoding : EncCall → List UInt8
  | head major val => encHead major val
  | map count => encHead 5 count
  | uint val => encHead 0 val
  | text s => encHead 3 s.length ++ s
  | textKey key => encHead 3 (cString key).length ++ cString key
  | bytesHdr len => encHead 2 len

theorem run_eq (e : CborEnc) (c : EncCall) : c.run e = c.encoding.foldl cborPut e := by
  cases c with
  | head major val => exact cborEncHead_eq e major val
  | map count => exact cborEncHead_eq e 5 count
  | uint val => exact cborEncHead_eq e 0 val
  | text s => rw [run, cborEncText, cborEncHead_eq, encoding, List.foldl_append]
  | textKey key =>
    rw [run, cborEncTextKey, cborEncText, cborEncHead_eq, encoding, List.foldl_append]
  | bytesHdr len => exact cborEncHead_eq e 2 len

end EncCall

/-- The encoder after an attempt to append `bs` to an empty buffer. -/
structure Wrote (buf : ℕ → UInt8) (cap : ℕ) (bs : List UInt8) (e : CborEnc) : Prop where
  cap_eq : e.cap = cap
  pos_eq : e.pos = min bs.length cap
  err_iff : e.err ≠ 0 ↔ cap < bs.length
  buf_eq : e.buf = overlay buf 0 (bs.take cap)

section Wrote

variable {buf : ℕ → UInt8} {cap : ℕ} {bs : List UInt8} {e : CborEnc}

theorem wrote_init : Wrote buf cap [] (cborEncInit buf cap) := by
  refine ⟨rfl, (Nat.zero_min cap).symm, by simp [cborEncInit], ?_⟩
  funext a
  rw [List.take_nil, overlay_of_not (.inr (Nat.zero_le a))]
  rfl

/-- One byte more is stored while there is room for it; the first one without room sets the
error, which stays. -/
theorem Wrote.put (h : Wrote buf cap bs e) (b : UInt8) :
    Wrote buf cap (bs ++ [b]) (cborPut e b) := by
  have hpos := h.pos_eq
  have hcap := h.cap_eq
  have hlen : (bs ++ [b]).length = bs.length + 1 := List.length_append
  unfold cborPut
  by_cases herr : e.err ≠ 0
  · have hlt := h.err_iff.mp herr
    rw [if_pos herr]
    refine ⟨hcap, by omega, ⟨fun _ => by omega, fun _ => herr⟩, ?_⟩
    rw [h.buf_eq, List.take_append_of_le_length (by omega)]
  · have hle : bs.length ≤ cap := by
      by_contra hlt
      exact herr (h.err_iff.mpr (by omega))
    rw [if_neg herr]
    by_cases hfull : e.cap ≤ e.pos
    · rw [if_pos hfull]
      refine ⟨hcap, by dsimp only; omega, ⟨fun _ => by omega, fun _ => by simp [ENOSPC]⟩, ?_⟩
      dsimp only
      rw [h.buf_eq, List.take_append_of_le_length (by omega)]
    · rw [if_neg hfull]
      refine ⟨hcap, by dsimp only; omega, ⟨fun h => absurd h herr, fun _ => by omega⟩, ?_⟩
      have hp : e.pos = 0 + bs.length := by omega
      dsimp only
      rw [h.buf_eq, List.take_of_length_le hle, List.take_of_length_le (by omega), hp,
        overlay_append]

theorem Wrote.foldl (h : Wrote buf cap bs e) (cs : List UInt8) :
    Wrote buf cap (bs ++ cs) (cs.foldl cborPut e) := by
  induction cs generalizing bs e with
  | nil => simpa using h
  | cons c cs ih => simpa using ih (h.put c)

theorem Wrote.calls (h : Wrote buf cap bs e) (calls : List EncCall) :
    Wrote buf cap (bs ++ calls.flatMap EncCall.encoding) (calls.foldl EncCall.run e) := by
  induction calls generalizing bs e with
  | nil => simpa using h
  | cons c calls ih =>
    have hrun := ih (h.foldl c.encoding)
    rw [← EncCall.run_eq] at hrun
    simpa using hrun

theorem wrote_calls (buf : ℕ → UInt8) (cap : ℕ) (calls : List EncCall) :
    Wrote buf cap (calls.flatMap EncCall.encoding)
      (calls.foldl EncCall.run (cborEncInit buf cap)) := wrote_init.calls calls

end Wrote

/-- The size of the argument behind an initial byte with this additional information. -/
def argSize : ℕ → Option ℕ
  | 24 => some 1
  | 25 => some 2
  | 26 => some 4
  | 27 => some 8
  | _ => none

theorem argSize_of_ne {ai : ℕ} (h1 : ai ≠ 24) (h2 : ai ≠ 25) (h3 : ai ≠ 26) (h4 : ai ≠ 27) :
    argSize ai = none := by
  unfold argSize
  split <;> first | rfl | contradiction

theorem head_bits (ib : ℕ) : ib >>> 5 = ib / 32 ∧ ib &&& 0x1F = ib % 32 :=
  ⟨Nat.shiftRight_eq_div_pow ib 5, Nat.and_two_pow_sub_one_eq_mod ib 5⟩

section Dec

variable {d : Buffer} {pos : ℕ} {ib : UInt8} {tl : List UInt8}

/-- The argument of `k` bytes at `pos`, with what becomes of a sum that does not fit. -/
def argAt (d : Buffer) (major pos k : ℕ) : Except BufStop ((ℕ × ℕ) × ℕ) :=
  if pos + k ≤ d.len then .ok ((major, beNat ((d.bytes.drop pos).take k)), pos + k)
  else if W64 ≤ pos + k then .error .overrun
  else .error .refused

theorem argAt_eq {word : List UInt8 → ℕ} {major k : ℕ} (hpos : pos ≤ d.len) (hk : k ≤ 8)
    (hword : ∀ b : List UInt8, b.length = k → word b = beNat b) :
    (if d.len < (pos + k) % W64 then .error .refused
      else do
        let b ← d.read pos k
        .ok ((major, word b), (pos + k) % W64)) = argAt d major pos k := by
  have hfits : d.len < W64 := d.fits
  have hw : W64 = 2 ^ 64 := rfl
  unfold argAt Buffer.read
  by_cases hle : pos + k ≤ d.len
  · have hlen : ((d.bytes.drop pos).take k).length = k := by
      rw [List.length_take, List.length_drop]
      exact Nat.min_eq_left (Nat.le_sub_of_add_le' hle)
    rw [if_pos hle, if_pos hle, Nat.mod_eq_of_lt (by omega), if_neg (by omega), ← hword _ hlen]
    rfl
  · rw [if_neg hle, if_neg hle]
    by_cases hwrap : W64 ≤ pos + k
    · have hmod : (pos + k) % W64 = pos + k - W64 := by
        rw [Nat.mod_eq_sub_mod hwrap, Nat.mod_eq_of_lt (by omega)]
      rw [if_pos hwrap, hmod, if_neg (by omega)]
      rfl
    · rw [if_neg hwrap, Nat.mod_eq_of_lt (by omega), if_pos (by omega)]

theorem drop_succ_of_cons {bs : List UInt8} (h : bs.drop pos = ib :: tl) :
    bs.drop (pos + 1) = tl := by
  rw [← List.drop_drop, h]
  rfl

theorem length_of_drop_cons {bs : List UInt8} (h : bs.drop pos = ib :: tl) :
    bs.length = pos + 1 + tl.length := by
  have hlen := congrArg List.length h
  rw [List.length_drop, List.length_cons] at hlen
  omega

theorem read_one (h : d.bytes.drop pos = ib :: tl) : d.read pos 1 = .ok [ib] := by
  have hlen : d.len = _ := length_of_drop_cons h
  rw [Buffer.read, if_pos (by omega), h]
  rfl

theorem cborDecHead_of_cons (h : d.bytes.drop pos = ib :: tl) :
    cborDecHead d pos =
      if ib.toNat % 32 < 24 then .ok ((ib.toNat / 32, ib.toNat % 32), pos + 1)
      else match argSize (ib.toNat % 32) with
        | some k => argAt d (ib.toNat / 32) (pos + 1) k
        | none => .error .refused := by
  have hlen : d.len = _ := length_of_drop_cons h
  have hle : pos + 1 ≤ d.len := by omega
  obtain ⟨hmajor, hai⟩ := head_bits ib.toNat
  have h1 : _ = argAt d (ib.toNat / 32) (pos + 1) 1 :=
    argAt_eq hle (by norm_num) fun _ => byte_eq
  have h2 : _ = argAt d (ib.toNat / 32) (pos + 1) 2 :=
    argAt_eq hle (by norm_num) fun _ => word16_eq
  have h4 : _ = argAt d (ib.toNat / 32) (pos + 1) 4 :=
    argAt_eq hle (by norm_num) fun _ => word32_eq
  have h8 : _ = argAt d (ib.toNat / 32) (pos + 1) 8 :=
    argAt_eq hle (by norm_num) fun _ => word64_eq
  unfold cborDecHead
  rw [if_neg (by omega), read_one h]
  change (pure [ib] >>= fun _ => _) = _
  rw [pure_bind]
  simp only [List.getD_cons_zero, hmajor, hai, h1, h2, h4, h8]
  generalize ib.toNat % 32 = ai
  split_ifs with h24 h25 h26 h27 h28
  · rfl
  · rw [h25]
    rfl
  · rw [h26]
    rfl
  · rw [h27]
    rfl
  · rw [h28]
    rfl
  · rw [argSize_of_ne h25 h26 h27 h28]

theorem cborDecHead_of_drop_eq_nil (h : d.bytes.drop pos = []) :
    cborDecHead d pos = .error .refused := if_pos (List.drop_eq_nil_iff.mp h)

theorem decHead_cons (ib : UInt8) (tl : List UInt8) :
    decHead (ib :: tl) =
      if ib.toNat % 32 < 24 then some ((ib.toNat / 32, ib.toNat % 32), tl)
      else match argSize (ib.toNat % 32) with
        | some k => (takeBytes k tl).map fun p => ((ib.toNat / 32, beNat p.1), p.2)
        | none => none := by
  unfold decHead
  dsimp only
  generalize ib.toNat % 32 = ai
  split_ifs with h24 h25 h26 h27 h28
  · rfl
  · rw [h25]
    rfl
  · rw [h26]
    rfl
  · rw [h27]
    rfl
  · rw [h28]
    rfl
  · rw [argSize_of_ne h25 h26 h27 h28]

/-- The argument of the head at `pos` ends where no `size_t` reaches. -/
def Buffer.Cut (d : Buffer) (pos : ℕ) : Prop :=
  ∃ ib tl k, d.bytes.drop pos = ib :: tl ∧ argSize (ib.toNat % 32) = some k ∧ W64 ≤ pos + 1 + k

theorem argSize_le {ai k : ℕ} (h : argSize ai = some k) : k ≤ 8 := by
  unfold argSize at h
  split at h <;> cases h <;> norm_num

theorem not_cut (h : pos + 9 < W64) : ¬ d.Cut pos := by
  rintro ⟨ib, tl, k, -, hk, hwrap⟩
  have := argSize_le hk
  omega

theorem cborDecHead_of_cut (h : d.Cut pos) : cborDecHead d pos = .error .overrun := by
  obtain ⟨ib, tl, k, hdrop, hk, hwrap⟩ := h
  have hfits : d.len < W64 := d.fits
  have h24 : ¬ ib.toNat % 32 < 24 := by
    intro hlt
    rw [argSize_of_ne (by omega) (by omega) (by omega) (by omega)] at hk
    cases hk
  rw [cborDecHead_of_cons hdrop, if_neg h24, hk]
  dsimp only [argAt]
  rw [if_neg (by omega), if_pos hwrap]

theorem cborDecHead_of_decHead {mv : ℕ × ℕ} {rest : List UInt8}
    (h : decHead (d.bytes.drop pos) = some (mv, rest)) :
    cborDecHead d pos = .ok (mv, d.len - rest.length) := by
  cases hdrop : d.bytes.drop pos with
  | nil =>
    rw [hdrop] at h
    cases h
  | cons ib tl =>
    have htl := drop_succ_of_cons hdrop
    have hlen : d.len = pos + 1 + tl.length := length_of_drop_cons hdrop
    rw [hdrop, decHead_cons] at h
    rw [cborDecHead_of_cons hdrop]
    by_cases h24 : ib.toNat % 32 < 24
    · rw [if_pos h24] at h ⊢
      cases h
      rw [show d.len - rest.length = pos + 1 by omega]
    · rw [if_neg h24] at h ⊢
      cases hsize : argSize (ib.toNat % 32) with
      | none =>
        rw [hsize] at h
        cases h
      | some k =>
        rw [hsize] at h
        obtain ⟨⟨arg, rest'⟩, htake, heq⟩ := Option.map_eq_some_iff.mp h
        cases heq
        obtain ⟨rfl, happ⟩ := takeBytes_eq_some.mp htake
        have hadd : tl.length = arg.length + rest'.length := by rw [happ, List.length_append]
        dsimp only [argAt]
        rw [if_pos (by omega), htl, happ, List.take_left,
          show d.len - rest'.length = pos + 1 + arg.length by omega]

theorem cborDecHead_of_decHead_none (h : decHead (d.bytes.drop pos) = none) :
    (d.Cut pos ∧ cborDecHead d pos = .error .overrun) ∨
      (¬ d.Cut pos ∧ cborDecHead d pos = .error .refused) := by
  cases hdrop : d.bytes.drop pos with
  | nil =>
    refine .inr ⟨?_, cborDecHead_of_drop_eq_nil hdrop⟩
    rintro ⟨ib, tl, k, hcons, -⟩
    cases hdrop.symm.trans hcons
  | cons ib tl =>
    have htl := drop_succ_of_cons hdrop
    have hlen : d.len = pos + 1 + tl.length := length_of_drop_cons hdrop
    have hcut : d.Cut pos ↔ ∃ k, argSize (ib.toNat % 32) = some k ∧ W64 ≤ pos + 1 + k := by
      constructor
      · rintro ⟨ib', tl', k, hcons, hk⟩
        cases hdrop.symm.trans hcons
        exact ⟨k, hk⟩
      · rintro ⟨k, hk⟩
        exact ⟨ib, tl, k, hdrop, hk⟩
    rw [hcut, cborDecHead_of_cons hdrop]
    rw [hdrop, decHead_cons] at h
    by_cases h24 : ib.toNat % 32 < 24
    · rw [if_pos h24] at h
      cases h
    · rw [if_neg h24] at h ⊢
      cases hsize : argSize (ib.toNat % 32) with
      | none => exact .inr ⟨by simp, rfl⟩
      | some k =>
        rw [hsize] at h
        have htake : tl.length < k := by
          by_contra hle
          simp only [takeBytes, if_neg hle, Option.map_some] at h
          cases h
        dsimp only [argAt]
        rw [if_neg (by omega)]
        by_cases hwrap : W64 ≤ pos + 1 + k
        · exact .inl ⟨⟨k, rfl, hwrap⟩, if_pos hwrap⟩
        · refine .inr ⟨?_, if_neg hwrap⟩
          rintro ⟨k', hk', hwrap'⟩
          cases hk'
          exact hwrap hwrap'

end Dec

section Read

variable {file : List UInt8} {off : ℕ} {ib : UInt8} {tl : List UInt8}

theorem toOption_readArg {word : List UInt8 → ℕ} {k : ℕ} (h : file.drop off = ib :: tl)
    (hword : ∀ b : List UInt8, b.length = k → word b = beNat b) (major : ℕ) :
    (match readExact file (off + 1) k with
      | .error _ => .error .error
      | .ok (b, off) => .ok ((major, word b), off) : Except ReadStop ((ℕ × ℕ) × ℕ)).toOption =
        (takeBytes k tl).map fun p => ((major, beNat p.1), file.length - p.2.length) := by
  have hlen := length_of_drop_cons h
  unfold readExact takeBytes
  rw [drop_succ_of_cons h]
  by_cases hk : tl.length < k
  · rw [if_neg (by omega), if_pos hk]
    split_ifs <;> rfl
  · rw [if_pos (by omega), if_neg hk, Option.map_some, List.length_drop,
      show file.length - (tl.length - k) = off + 1 + k by omega]
    dsimp only
    rw [hword _ (by rw [List.length_take]; omega)]
    rfl

theorem toOption_cborReadHead (file : List UInt8) (off : ℕ) :
    (cborReadHead file off).toOption =
      (decHead (file.drop off)).map fun r => (r.1, file.length - r.2.length) := by
  cases hdrop : file.drop off with
  | nil =>
    have hle := List.drop_eq_nil_iff.mp hdrop
    unfold cborReadHead readExact
    rw [if_neg (by omega), if_pos hle]
    rfl
  | cons ib tl =>
    have hlen := length_of_drop_cons hdrop
    obtain ⟨hmajor, hai⟩ := head_bits ib.toNat
    have h1 := toOption_readArg hdrop (fun _ => byte_eq) (ib.toNat / 32)
    have h2 := toOption_readArg hdrop (fun _ => word16_eq) (ib.toNat / 32)
    have h4 := toOption_readArg hdrop (fun _ => word32_eq) (ib.toNat / 32)
    have h8 := toOption_readArg hdrop (fun _ => word64_eq) (ib.toNat / 32)
    have hib : readExact file off 1 = .ok ([ib], off + 1) := by
      unfold readExact
      rw [if_pos (by omega), hdrop]
      rfl
    unfold cborReadHead
    rw [hib, decHead_cons]
    change Except.toOption (pure ([ib], off + 1) >>= fun _ => _) = _
    rw [pure_bind]
    simp only [List.getD_cons_zero, hmajor, hai]
    generalize ib.toNat % 32 = ai
    split_ifs with h24 h25 h26 h27 h28
    · rw [Option.map_some, show file.length - tl.length = off + 1 by omega]
      rfl
    · rw [h1, h25]
      simp [argSize, Function.comp_def]
    · rw [h2, h26]
      simp [argSize, Function.comp_def]
    · rw [h4, h27]
      simp [argSize, Function.comp_def]
    · rw [h8, h28]
      simp [argSize, Function.comp_def]
    · rw [argSize_of_ne h25 h26 h27 h28]
      rfl

end Read

/-- Both writers write the shortest head of `major` and `val`, and `cbor_dec_head` reads it back,
whatever follows it. -/
structure HeadAgrees (buf : ℕ → UInt8) (cap major val : ℕ) : Prop where
  err : (cborEncHead (cborEncInit buf cap) major val).err = 0
  len : cborEncLen (cborEncHead (cborEncInit buf cap) major val) = (cborWriteHead buf major val).2
  same : (cborEncHead (cborEncInit buf cap) major val).buf = (cborWriteHead buf major val).1
  encodes : IsHead major val
    (window (cborWriteHead buf major val).1 0 (cborWriteHead buf major val).2)
  shortest : ∀ hd, IsHead major val hd → (cborWriteHead buf major val).2 ≤ hd.length
  decodes : ∀ (d : Buffer) (rest : List UInt8),
    d.bytes = window (cborWriteHead buf major val).1 0 (cborWriteHead buf major val).2 ++ rest →
      cborDecHead d 0 = .ok ((major, val), (cborWriteHead buf major val).2)

/-- The readers fail together or return the same pair and the same position, and none reads
behind the buffer. -/
structure DecodersAgree (d : Buffer) (pos : ℕ) : Prop where
  read : (cborReadHead d.bytes pos).toOption = (cborDecHead d pos).toOption
  buf : bufHead d pos = cborDecHead d pos
  buf2 : bufHead2 d pos = cborDecHead d pos
  inside : cborDecHead d pos ≠ .error .overrun

structure CallsEncode (buf : ℕ → UInt8) (cap : ℕ) (calls : List EncCall) (e : CborEnc) : Prop where
  err_iff : e.err ≠ 0 ↔ cap < (calls.flatMap EncCall.encoding).length
  frame : ∀ i, cap ≤ i → e.buf i = buf i
  contents : e.err = 0 → window e.buf 0 (cborEncLen e) = calls.flatMap EncCall.encoding

theorem window_cborWriteHead (buf : ℕ → UInt8) (major val : ℕ) :
    window (cborWriteHead buf major val).1 0 (cborWriteHead buf major val).2 =
      encHead major val := by
  rw [cborWriteHead_eq]
  exact window_overlay_self

theorem headAgrees (buf : ℕ → UInt8) {cap major val : ℕ} (hm : major < 8) (hv : val < 2 ^ 64)
    (hcap : (cborWriteHead buf major val).2 ≤ cap) : HeadAgrees buf cap major val := by
  have hwrote : Wrote buf cap (encHead major val)
      (cborEncHead (cborEncInit buf cap) major val) := by
    rw [cborEncHead_eq]
    exact wrote_init.foldl (encHead major val)
  have hwin := window_cborWriteHead buf major val
  have hw := cborWriteHead_eq buf major val
  have hlen : (cborWriteHead buf major val).2 = (encHead major val).length := by rw [hw]
  have hhead := isHead_encHead hm hv
  constructor
  · by_contra herr
    have := hwrote.err_iff.mp herr
    omega
  · exact hwrote.pos_eq.trans (by omega)
  · rw [hwrote.buf_eq, hw, List.take_of_length_le (by omega)]
  · rwa [hwin]
  · intro hd hhd
    rw [hlen]
    exact length_encHead_le_of_isHead hhd
  · intro d rest hd
    rw [hwin] at hd
    have hdec : decHead (d.bytes.drop 0) = some ((major, val), rest) := by
      rw [List.drop_zero, hd]
      exact hhead.decHead rest
    have hd' : d.len = (encHead major val).length + rest.length := by
      rw [Buffer.len, hd, List.length_append]
    rw [cborDecHead_of_decHead hdec, hlen, hd', Nat.add_sub_cancel]

theorem decodersAgree (d : Buffer) {pos : ℕ} (h : pos + 9 < W64) : DecodersAgree d pos := by
  refine ⟨?_, by rw [bufHead_eq], by rw [bufHead2_eq], ?_⟩
  · rw [toOption_cborReadHead]
    cases hdec : decHead (d.bytes.drop pos) with
    | none =>
      rcases cborDecHead_of_decHead_none hdec with ⟨-, he⟩ | ⟨-, he⟩ <;> rw [he] <;> rfl
    | some r =>
      rw [cborDecHead_of_decHead hdec]
      rfl
  · intro hover
    cases hdec : decHead (d.bytes.drop pos) with
    | none =>
      rcases cborDecHead_of_decHead_none hdec with ⟨hcut, -⟩ | ⟨-, he⟩
      · exact not_cut h hcut
      · rw [he] at hover
        cases hover
    | some r =>
      rw [cborDecHead_of_decHead hdec] at hover
      cases hover

theorem callsEncode (buf : ℕ → UInt8) (cap : ℕ) (calls : List EncCall) :
    CallsEncode buf cap calls (calls.foldl EncCall.run (cborEncInit buf cap)) := by
  have h := wrote_calls buf cap calls
  refine ⟨h.err_iff, ?_, ?_⟩
  · intro i hi
    have hlen := List.length_take_le cap (calls.flatMap EncCall.encoding)
    rw [h.buf_eq, overlay_of_not (by omega)]
  · intro herr
    have hle : (calls.flatMap EncCall.encoding).length ≤ cap := by
      by_contra hlt
      exact h.err_iff.mpr (by omega) herr
    have hpos := h.pos_eq
    rw [Nat.min_eq_left hle] at hpos
    rw [cborEncLen, hpos, h.buf_eq, List.take_of_length_le hle]
    exact window_overlay_self

/-- The five copies are one codec: the writers agree with each other and with the readers, the
readers with each other, and a sequence of calls fills its buffer or reports that it is too
small. -/
theorem codecs_agree :
    (∀ (buf : ℕ → UInt8) (cap major val : ℕ), major < 8 → val < 2 ^ 64 →
      (cborWriteHead buf major val).2 ≤ cap → HeadAgrees buf cap major val) ∧
    (∀ (d : Buffer) (pos : ℕ), pos + 9 < W64 → DecodersAgree d pos) ∧
    ∀ (buf : ℕ → UInt8) (cap : ℕ) (calls : List EncCall),
      CallsEncode buf cap calls (calls.foldl EncCall.run (cborEncInit buf cap)) :=
  ⟨fun buf _ _ _ hm hv hcap => headAgrees buf hm hv hcap, fun d _ h => decodersAgree d h,
    callsEncode⟩

end Lbd.Cbor
