import Lbd.Bytes

/-!
# CBOR

The part of RFC 8949 that `cbor_enc.h` writes and `cbor_dec.h` reads: heads,
unsigned integers, byte and text strings, and flat maps with integer keys. What the
encoder writes is read back, whatever follows it.
-/

namespace Lbd.Cbor

/-- `cbor_enc_head`: major type and value in the shortest form. -/
def encHead (major val : ℕ) : List UInt8 :=
  let mt := 32 * major
  if val < 24 then [UInt8.ofNat (mt + val)]
  else if val ≤ 0xFF then UInt8.ofNat (mt + 24) :: beBytes 1 val
  else if val ≤ 0xFFFF then UInt8.ofNat (mt + 25) :: beBytes 2 val
  else if val ≤ 0xFFFFFFFF then UInt8.ofNat (mt + 26) :: beBytes 4 val
  else UInt8.ofNat (mt + 27) :: beBytes 8 val

/-- The next `n` bytes and what follows them. -/
def takeBytes (n : ℕ) (bs : List UInt8) : Option (List UInt8 × List UInt8) :=
  if bs.length < n then none else some (bs.take n, bs.drop n)

def decHead : List UInt8 → Option ((ℕ × ℕ) × List UInt8)
  | [] => none
  | ib :: rest =>
    let major := ib.toNat / 32
    let ai := ib.toNat % 32
    let arg (k : ℕ) := (takeBytes k rest).map fun p => ((major, beNat p.1), p.2)
    if ai < 24 then some ((major, ai), rest)
    else if ai = 24 then arg 1
    else if ai = 25 then arg 2
    else if ai = 26 then arg 4
    else if ai = 27 then arg 8
    else none

theorem takeBytes_append (bs rest : List UInt8) :
    takeBytes bs.length (bs ++ rest) = some (bs, rest) := by
  rw [takeBytes, if_neg (by simp), List.take_left, List.drop_left]

theorem length_encHead_pos (major val : ℕ) : 0 < (encHead major val).length := by
  unfold encHead
  dsimp only
  split_ifs <;> simp

theorem length_encHead_le (major val : ℕ) : (encHead major val).length ≤ 9 := by
  unfold encHead
  dsimp only
  split_ifs <;> simp

theorem length_encHead_of_lt {val : ℕ} (h : val < 24) (major : ℕ) :
    (encHead major val).length = 1 := by
  simp [encHead, h]

theorem decHead_arg {major val k ai : ℕ} (hm : major < 8) (hv : val < 256 ^ k)
    (hk : (ai, k) ∈ [(24, 1), (25, 2), (26, 4), (27, 8)]) (rest : List UInt8) :
    decHead (UInt8.ofNat (32 * major + ai) :: (beBytes k val ++ rest)) =
      some ((major, val), rest) := by
  have hai : 24 ≤ ai ∧ ai < 32 := by
    simp only [List.mem_cons, Prod.mk.injEq, List.not_mem_nil, or_false] at hk
    omega
  have hib : (UInt8.ofNat (32 * major + ai)).toNat = 32 * major + ai := by
    rw [UInt8.toNat_ofNat']
    omega
  have hmajor : (32 * major + ai) / 32 = major := by omega
  have hmod : (32 * major + ai) % 32 = ai := by omega
  have htake := takeBytes_append (beBytes k val) rest
  rw [length_beBytes] at htake
  have harg : ((takeBytes k (beBytes k val ++ rest)).map fun p => ((major, beNat p.1), p.2)) =
      some ((major, val), rest) := by
    rw [htake, Option.map_some, beNat_beBytes, Nat.mod_eq_of_lt hv]
  simp only [decHead, hib, hmajor, hmod, if_neg (show ¬ ai < 24 by omega)]
  simp only [List.mem_cons, Prod.mk.injEq, List.not_mem_nil, or_false] at hk
  rcases hk with ⟨rfl, rfl⟩ | ⟨rfl, rfl⟩ | ⟨rfl, rfl⟩ | ⟨rfl, rfl⟩ <;> simpa using harg

theorem decHead_encHead {major val : ℕ} (hm : major < 8) (hv : val < 2 ^ 64)
    (rest : List UInt8) : decHead (encHead major val ++ rest) = some ((major, val), rest) := by
  unfold encHead
  dsimp only
  split_ifs with h24 h8 h16 h32
  · have hib : (UInt8.ofNat (32 * major + val)).toNat = 32 * major + val := by
      rw [UInt8.toNat_ofNat']
      omega
    have hmajor : (32 * major + val) / 32 = major := by omega
    have hmod : (32 * major + val) % 32 = val := by omega
    simp only [List.singleton_append, decHead, hib, hmajor, hmod, if_pos h24]
  · exact decHead_arg hm (by omega) (by simp) rest
  · exact decHead_arg hm (by omega) (by simp) rest
  · exact decHead_arg hm (by omega) (by simp) rest
  · exact decHead_arg hm (by omega) (by simp) rest

inductive Value where
  | uint (n : ℕ)
  | bytes (data : List UInt8)
  | text (data : List UInt8)
deriving DecidableEq, Repr

/-- Integers and lengths fit in 64 bits. -/
def Value.Fits : Value → Prop
  | .uint n => n < 2 ^ 64
  | .bytes data => data.length < 2 ^ 64
  | .text data => data.length < 2 ^ 64

def encValue : Value → List UInt8
  | .uint n => encHead 0 n
  | .bytes data => encHead 2 data.length ++ data
  | .text data => encHead 3 data.length ++ data

def decValue (bs : List UInt8) : Option (Value × List UInt8) := do
  let ((major, val), rest) ← decHead bs
  match major with
  | 0 => some (.uint val, rest)
  | 2 => (takeBytes val rest).map fun p => (.bytes p.1, p.2)
  | 3 => (takeBytes val rest).map fun p => (.text p.1, p.2)
  | _ => none

theorem decValue_encValue {v : Value} (h : v.Fits) (rest : List UInt8) :
    decValue (encValue v ++ rest) = some (v, rest) := by
  cases v with
  | uint n => simp [decValue, encValue, decHead_encHead (by norm_num : 0 < 8) h]
  | bytes data =>
    simp [decValue, encValue, List.append_assoc, decHead_encHead (by norm_num : 2 < 8) h,
      takeBytes_append]
  | text data =>
    simp [decValue, encValue, List.append_assoc, decHead_encHead (by norm_num : 3 < 8) h,
      takeBytes_append]

abbrev Field := ℕ × Value

def Field.Fits (f : Field) : Prop := f.1 < 2 ^ 64 ∧ f.2.Fits

def encField (f : Field) : List UInt8 := encHead 0 f.1 ++ encValue f.2

def encMap (fields : List Field) : List UInt8 := encHead 5 fields.length ++ fields.flatMap encField

def decField (bs : List UInt8) : Option (Field × List UInt8) := do
  let ((major, key), rest) ← decHead bs
  if major = 0 then
    let (v, rest) ← decValue rest
    return ((key, v), rest)
  else none

def decFields : ℕ → List UInt8 → Option (List Field × List UInt8)
  | 0, bs => some ([], bs)
  | n + 1, bs => do
    let (f, rest) ← decField bs
    let (fs, rest) ← decFields n rest
    return (f :: fs, rest)

def decMap (bs : List UInt8) : Option (List Field × List UInt8) := do
  let ((major, n), rest) ← decHead bs
  if major = 5 then decFields n rest else none

theorem decField_encField {f : Field} (h : f.Fits) (rest : List UInt8) :
    decField (encField f ++ rest) = some (f, rest) := by
  simp [decField, encField, List.append_assoc, decHead_encHead (by norm_num : 0 < 8) h.1,
    decValue_encValue h.2]

theorem decFields_flatMap {fields : List Field} (h : ∀ f ∈ fields, f.Fits) (rest : List UInt8) :
    decFields fields.length (fields.flatMap encField ++ rest) = some (fields, rest) := by
  induction fields with
  | nil => rfl
  | cons f fields ih =>
    obtain ⟨hf, hfs⟩ := List.forall_mem_cons.mp h
    simp [decFields, List.flatMap_cons, List.append_assoc, decField_encField hf, ih hfs]

/-- A map whose size and fields fit in 64 bits. -/
def MapFits (fields : List Field) : Prop := fields.length < 2 ^ 64 ∧ ∀ f ∈ fields, f.Fits

theorem decMap_encMap {fields : List Field} (h : MapFits fields) (rest : List UInt8) :
    decMap (encMap fields ++ rest) = some (fields, rest) := by
  simp [decMap, encMap, List.append_assoc, decHead_encHead (by norm_num : 5 < 8) h.1,
    decFields_flatMap h.2]

/-- Maps up to the end of the input; every map takes at least one of the bytes. -/
def decMaps : ℕ → List UInt8 → Option (List (List Field))
  | _, [] => some []
  | 0, _ :: _ => none
  | fuel + 1, b :: bs => do
    let (m, rest) ← decMap (b :: bs)
    let ms ← decMaps fuel rest
    return m :: ms

/-- A CBOR sequence (RFC 8742) of maps. -/
def decSeq (bs : List UInt8) : Option (List (List Field)) := decMaps bs.length bs

theorem encMap_ne_nil (fields : List Field) : encMap fields ≠ [] := by
  have h := length_encHead_pos 5 fields.length
  intro hnil
  simp [encMap] at hnil
  simp [hnil.1] at h

theorem decMaps_flatMap {ms : List (List Field)} (h : ∀ m ∈ ms, MapFits m) {fuel : ℕ}
    (hf : ms.length ≤ fuel) : decMaps fuel (ms.flatMap encMap) = some ms := by
  induction ms generalizing fuel with
  | nil => cases fuel <;> rfl
  | cons m ms ih =>
    obtain ⟨hm, hms⟩ := List.forall_mem_cons.mp h
    obtain ⟨fuel, rfl⟩ : ∃ k, fuel = k + 1 := ⟨fuel - 1, by simp at hf; omega⟩
    have hdec := decMap_encMap hm (ms.flatMap encMap)
    rw [List.flatMap_cons]
    obtain ⟨b, bs, hb⟩ := List.exists_cons_of_ne_nil
      (List.append_ne_nil_of_left_ne_nil (encMap_ne_nil m) (ms.flatMap encMap))
    rw [hb] at hdec ⊢
    simp [decMaps, hdec, ih hms (by simpa using hf)]

theorem length_le_flatMap_encMap (ms : List (List Field)) :
    ms.length ≤ (ms.flatMap encMap).length := by
  induction ms with
  | nil => simp
  | cons m ms ih =>
    have hpos := List.length_pos_of_ne_nil (encMap_ne_nil m)
    rw [List.flatMap_cons, List.length_append, List.length_cons]
    omega

theorem decSeq_flatMap {ms : List (List Field)} (h : ∀ m ∈ ms, MapFits m) :
    decSeq (ms.flatMap encMap) = some ms :=
  decMaps_flatMap h (length_le_flatMap_encMap ms)

end Lbd.Cbor
