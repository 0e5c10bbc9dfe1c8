import Lbd.Cbor

/-!
# Reading CBOR by its keys

Heads of every width, and the loop that `lbdctl` and the control file share: the head of a map,
then for each pair an integer key that says how the value is to be read. `IsHead` and its
companions say what an encoding is, whatever width its writer chose; the readers accept exactly
these.
-/

namespace Lbd.Cbor

/-- The additional information of a wide head with the size of its argument. -/
def widths : List (ℕ × ℕ) := [(24, 1), (25, 2), (26, 4), (27, 8)]

/-- A head of the given major type and value, in one of its five widths. -/
def IsHead (major val : ℕ) (bs : List UInt8) : Prop :=
  major < 8 ∧ (val < 24 ∧ bs = [UInt8.ofNat (32 * major + val)] ∨
    ∃ ai arg, (ai, arg.length) ∈ widths ∧ beNat arg = val ∧
      bs = UInt8.ofNat (32 * major + ai) :: arg)

def IsText (data bs : List UInt8) : Prop := ∃ hd, IsHead 3 data.length hd ∧ bs = hd ++ data

theorem ofNat_div_mod (ib : UInt8) : UInt8.ofNat (32 * (ib.toNat / 32) + ib.toNat % 32) = ib := by
  rw [Nat.div_add_mod, UInt8.ofNat_toNat]

theorem toNat_initial {major ai : ℕ} (hm : major < 8) (ha : ai < 32) :
    (UInt8.ofNat (32 * major + ai)).toNat = 32 * major + ai := by
  rw [UInt8.toNat_ofNat']
  omega

theorem takeBytes_eq_some {n : ℕ} {bs p rest : List UInt8} :
    takeBytes n bs = some (p, rest) ↔ p.length = n ∧ bs = p ++ rest := by
  unfold takeBytes
  split_ifs with h
  · constructor
    · nofun
    · rintro ⟨rfl, rfl⟩
      simp at h
  · simp only [Option.some.injEq, Prod.mk.injEq]
    constructor
    · rintro ⟨rfl, rfl⟩
      exact ⟨by rw [List.length_take]; omega, (List.take_append_drop n bs).symm⟩
    · rintro ⟨rfl, rfl⟩
      simp

theorem widths_bounds {ai k : ℕ} (h : (ai, k) ∈ widths) : 24 ≤ ai ∧ ai < 32 := by
  simp only [widths, List.mem_cons, Prod.mk.injEq, List.not_mem_nil, or_false] at h
  omega

theorem decHead_wide {major ai : ℕ} (hm : major < 8) {arg : List UInt8}
    (hk : (ai, arg.length) ∈ widths) (rest : List UInt8) :
    decHead (UInt8.ofNat (32 * major + ai) :: (arg ++ rest)) =
      some ((major, beNat arg), rest) := by
  have hai := widths_bounds hk
  have hmajor : (32 * major + ai) / 32 = major := by omega
  have hmod : (32 * major + ai) % 32 = ai := by omega
  have harg : ((takeBytes arg.length (arg ++ rest)).map fun p => ((major, beNat p.1), p.2)) =
      some ((major, beNat arg), rest) := by
    rw [takeBytes_append, Option.map_some]
  simp only [decHead, toNat_initial hm hai.2, hmajor, hmod, if_neg (show ¬ai < 24 by omega)]
  simp only [widths, List.mem_cons, Prod.mk.injEq, List.not_mem_nil, or_false] at hk
  rcases hk with ⟨rfl, hlen⟩ | ⟨rfl, hlen⟩ | ⟨rfl, hlen⟩ | ⟨rfl, hlen⟩ <;> rw [hlen] at harg <;>
    simpa using harg

theorem IsHead.decHead {major val : ℕ} {hd : List UInt8} (h : IsHead major val hd)
    (rest : List UInt8) : decHead (hd ++ rest) = some ((major, val), rest) := by
  obtain ⟨hm, ⟨hval, rfl⟩ | ⟨ai, arg, hk, rfl, rfl⟩⟩ := h
  · have hmajor : (32 * major + val) / 32 = major := by omega
    have hmod : (32 * major + val) % 32 = val := by omega
    simp only [List.singleton_append, Cbor.decHead, toNat_initial hm (show val < 32 by omega),
      hmajor, hmod, if_pos hval]
  · exact decHead_wide hm hk rest

theorem decHead_eq_some {bs : List UInt8} {major val : ℕ} {rest : List UInt8} :
    decHead bs = some ((major, val), rest) ↔ ∃ hd, IsHead major val hd ∧ bs = hd ++ rest := by
  constructor
  · intro h
    cases bs with
    | nil => cases h
    | cons ib bs =>
      have hib := ib.toNat_lt
      have wide : ∀ k, (ib.toNat % 32, k) ∈ widths →
          (takeBytes k bs).map (fun p => ((ib.toNat / 32, beNat p.1), p.2)) =
            some ((major, val), rest) →
          ∃ hd, IsHead major val hd ∧ ib :: bs = hd ++ rest := by
        intro k hk hmap
        obtain ⟨⟨arg, rest'⟩, htake, heq⟩ := Option.map_eq_some_iff.mp hmap
        cases heq
        obtain ⟨rfl, rfl⟩ := takeBytes_eq_some.mp htake
        exact ⟨ib :: arg, ⟨by omega, .inr ⟨_, arg, hk, rfl, by rw [ofNat_div_mod]⟩⟩, rfl⟩
      unfold Cbor.decHead at h
      dsimp only at h
      split_ifs at h with h24 h1 h2 h4 h8
      · cases h
        exact ⟨[ib], ⟨by omega, .inl ⟨h24, by rw [ofNat_div_mod]⟩⟩, rfl⟩
      · exact wide 1 (by simp [widths, h1]) h
      · exact wide 2 (by simp [widths, h2]) h
      · exact wide 4 (by simp [widths, h4]) h
      · exact wide 8 (by simp [widths, h8]) h
  · rintro ⟨hd, hhead, rfl⟩
    exact hhead.decHead rest

theorem IsHead.unique {major major' val val' : ℕ} {hd hd' rest rest' : List UInt8}
    (h : IsHead major val hd) (h' : IsHead major' val' hd') (heq : hd ++ rest = hd' ++ rest') :
    (major = major' ∧ val = val') ∧ rest = rest' := by
  have hdec := h.decHead rest
  rw [heq, h'.decHead rest'] at hdec
  simpa [eq_comm] using hdec

theorem IsText.unique {text text' enc enc' rest rest' : List UInt8} (h : IsText text enc)
    (h' : IsText text' enc') (heq : enc ++ rest = enc' ++ rest') :
    text = text' ∧ rest = rest' := by
  obtain ⟨hd, hhd, rfl⟩ := h
  obtain ⟨hd', hhd', rfl⟩ := h'
  rw [List.append_assoc, List.append_assoc] at heq
  obtain ⟨⟨-, hlen⟩, htail⟩ := hhd.unique hhd' heq
  exact List.append_inj htail hlen

theorem isHead_encHead {major val : ℕ} (hm : major < 8) (hv : val < 2 ^ 64) :
    IsHead major val (encHead major val) := by
  obtain ⟨hd, hhead, heq⟩ := decHead_eq_some.mp (decHead_encHead hm hv [])
  rw [List.append_nil, List.append_nil] at heq
  rwa [heq]

theorem IsHead.ne_nil {major val : ℕ} {hd : List UInt8} (h : IsHead major val hd) : hd ≠ [] := by
  obtain ⟨-, ⟨-, rfl⟩ | ⟨ai, arg, -, -, rfl⟩⟩ := h <;> simp

/-- What C sees of a text that was copied into an array. -/
def cString (array : List UInt8) : List UInt8 := array.takeWhile (· ≠ 0)

theorem cString_eq_self {text : List UInt8} : cString text = text ↔ 0 ∉ text := by
  unfold cString
  rw [List.takeWhile_eq_self_iff]
  constructor
  · intro h hz
    simpa using h 0 hz
  · intro h b hb
    simp only [ne_eq, decide_not, Bool.not_eq_true', decide_eq_false_iff_not]
    exact fun hz => h (hz ▸ hb)

/-- A head of the expected major type: `cbor_dec_uint` and `cbor_dec_map` of the module,
`cbor_read_uint`, `cbor_read_bytes_hdr` and `cbor_read_map` of `lbdctl`. -/
def decMajor (expected : ℕ) (bs : List UInt8) : Option (ℕ × List UInt8) := do
  let ((major, val), rest) ← decHead bs
  if major = expected then some (val, rest) else none

def decUint (bs : List UInt8) : Option (ℕ × List UInt8) := decMajor 0 bs

/-- `cbor_dec_text` and `cbor_read_text`: a text for an array of `cap` bytes. -/
def decText (cap : ℕ) (bs : List UInt8) : Option (List UInt8 × List UInt8) := do
  let (len, rest) ← decMajor 3 bs
  if cap ≤ len then none else takeBytes len rest

theorem decMajor_eq_some {expected val : ℕ} {bs rest : List UInt8} :
    decMajor expected bs = some (val, rest) ↔
      ∃ hd, IsHead expected val hd ∧ bs = hd ++ rest := by
  rw [← decHead_eq_some, decMajor]
  cases h : decHead bs with
  | none => simp
  | some p =>
    obtain ⟨⟨major, v⟩, r⟩ := p
    by_cases hm : major = expected <;> simp [hm]

theorem decText_eq_some {cap : ℕ} {bs data rest : List UInt8} :
    decText cap bs = some (data, rest) ↔
      data.length < cap ∧ ∃ enc, IsText data enc ∧ bs = enc ++ rest := by
  unfold decText
  constructor
  · intro h
    obtain ⟨⟨len, r⟩, hhead, hrest⟩ := Option.bind_eq_some_iff.mp h
    dsimp only at hrest
    split_ifs at hrest with hcap
    obtain ⟨hd, hhd, rfl⟩ := decMajor_eq_some.mp hhead
    obtain ⟨rfl, rfl⟩ := takeBytes_eq_some.mp hrest
    exact ⟨by omega, hd ++ data, ⟨hd, hhd, rfl⟩, by rw [List.append_assoc]⟩
  · rintro ⟨hlt, enc, ⟨hd, hhd, rfl⟩, rfl⟩
    have hhead : decMajor 3 (hd ++ data ++ rest) = some (data.length, data ++ rest) :=
      decMajor_eq_some.mpr ⟨hd, hhd, by rw [List.append_assoc]⟩
    rw [hhead]
    change (if cap ≤ data.length then none else takeBytes data.length (data ++ rest)) = _
    rw [if_neg (by omega), takeBytes_append]

theorem decUint_encHead {n : ℕ} (h : n < 2 ^ 64) (rest : List UInt8) :
    decUint (encHead 0 n ++ rest) = some (n, rest) :=
  decMajor_eq_some.mpr ⟨_, isHead_encHead (by decide) h, rfl⟩

theorem decText_encValue {cap : ℕ} {text : List UInt8} (h : text.length < cap)
    (hfits : text.length < 2 ^ 64) (rest : List UInt8) :
    decText cap (encValue (.text text) ++ rest) = some (text, rest) :=
  decText_eq_some.mpr ⟨h, _, ⟨_, isHead_encHead (by decide) hfits, rfl⟩, rfl⟩

section Keyed

variable {ε σ : Type*} (badKey : ε) (field : σ → ℕ → List UInt8 → Except ε (σ × List UInt8))

/-- The loop over the pairs of a map: a key, and what `field` does with the value behind it. -/
def keyed : ℕ → σ → List UInt8 → Except ε (σ × List UInt8)
  | 0, s, bs => .ok (s, bs)
  | n + 1, s, bs =>
    match decUint bs with
    | none => .error badKey
    | some (key, rest) =>
      match field s key rest with
      | .error e => .error e
      | .ok (s, rest) => keyed n s rest

variable {badKey field}

theorem keyed_succ {n : ℕ} {s s' : σ} {key : ℕ} {hd bs rest : List UInt8} (hkey : IsHead 0 key hd)
    (hfield : field s key bs = .ok (s', rest)) :
    keyed badKey field (n + 1) s (hd ++ bs) = keyed badKey field n s' rest := by
  have hdec : decUint (hd ++ bs) = some (key, bs) := decMajor_eq_some.mpr ⟨hd, hkey, rfl⟩
  rw [keyed, hdec]
  simp only [hfield]

theorem keyed_encField {apply : σ → Field → σ} {fields : List Field}
    (hfits : ∀ f ∈ fields, f.1 < 2 ^ 64)
    (hfield : ∀ f ∈ fields, ∀ s rest,
      field s f.1 (encValue f.2 ++ rest) = .ok (apply s f, rest))
    (s : σ) (rest : List UInt8) :
    keyed badKey field fields.length s (fields.flatMap encField ++ rest) =
      .ok (fields.foldl apply s, rest) := by
  induction fields generalizing s with
  | nil => rfl
  | cons f fields ih =>
    obtain ⟨hf, hfs⟩ := List.forall_mem_cons.mp hfits
    obtain ⟨hstep, hsteps⟩ := List.forall_mem_cons.mp hfield
    rw [List.flatMap_cons, encField, List.length_cons, List.append_assoc, List.append_assoc,
      keyed_succ (isHead_encHead (by decide) hf) (hstep s _), ih hfs hsteps]
    rfl

end Keyed

end Lbd.Cbor
