import Lbd.QCow2.Checked

/-!
# Malformed images

Whether all reads of an opened file end with their bytes or with an error depends on the cluster
bits, and for bits out of range on the L1 table.
-/

namespace Lbd.QCow2.Checked

/-- A result with all bytes, or an error. -/
def Ends (n : ℕ) : Except Stop (List UInt8) → Prop
  | .ok bytes => bytes.length = n
  | .error (.error _) => True
  | .error _ => False

/-- The image after some calls of `ReadAt`: their fuel, offset and length. -/
def afterReads (z : Codec) (img : QCow2Image) (pre : List (ℕ × ℕ × ℕ)) : QCow2Image :=
  pre.foldl (fun img r => (readAt z r.1 r.2.1 r.2.2 img).2) img

/-- Whatever was read before, every `ReadAt` ends with its bytes or with an error. -/
def ReadsSafely (z : Codec) (img : QCow2Image) : Prop :=
  ∀ pre guestOffset n, guestOffset < 2 ^ 63 →
    ∃ fuel, Ends n (readAt z fuel guestOffset n (afterReads z img pre)).1

/-- The largest L1 index that an `int64` offset has, for clusters of `2^32` bytes or more. -/
def topIndex (clusterBits : ℕ) : ℕ := (2 ^ 63 - 1) >>> clusterBits / (2 ^ 29 - 1)

/-- The clusters are large enough for a table and its trailer. -/
def Sized (img : QCow2Image) : Prop := 4 ≤ img.clusterBits ∧ img.clusterBits < 32

/-- With clusters of an improper size, the table of an entry cannot be read, or its checksum is
wrong. -/
def Refused (img : QCow2Image) (i : ℕ) : Prop :=
  (img.clusterBits ≤ 2 ∧ ∀ buf, img.f.readFull (img.l1Table i) img.clusterSize = some buf →
    img.clusterBits = 2 ∧ get32 buf 0 ≠ 0) ∨
  (32 ≤ img.clusterBits ∧ 2 ^ 63 ≤ img.l1Table i)

/-- What `ReadAt` needs of the header and the L1 table. -/
def Readable (img : QCow2Image) : Prop :=
  Sized img ∨
  (img.clusterBits ≤ 2 ∧ ∀ i < img.l1Size, img.l1Table i ≠ 0 → Refused img i) ∨
  (32 ≤ img.clusterBits ∧ ∀ i ≤ topIndex img.clusterBits, i < img.l1Size ∧ Refused img i)

/-- An error of the source, not a stop of the run time. -/
def Stop.IsError (e : Stop) : Prop := ∃ q, e = .error q

variable {img s : QCow2Image} {z : Codec}

theorem meets_readFile {op : FileOp} {off n : ℕ} :
    Act.Meets (readFile op off n) s (fun bs s' => s.f.readFull off n = some bs ∧ s' = s)
      fun e s' => s.f.readFull off n = none ∧ e = .error (.read op) ∧ s' = s := by
  unfold Act.Meets readFile
  cases h : s.f.readFull off n with
  | none => exact ⟨rfl, rfl, rfl⟩
  | some bs => exact ⟨rfl, rfl⟩

theorem meets_field {k off : ℕ} {buf : List UInt8} :
    Act.Meets (field k buf off) s
      (fun v s' => v = getBE k buf off ∧ off + k ≤ buf.length ∧ s' = s)
      fun e s' => e = .sliceBounds ∧ buf.length < off + k ∧ s' = s := by
  unfold field
  apply Act.meets_ite
  · intro h
    exact ⟨rfl, h, rfl⟩
  · intro h
    exact ⟨rfl, not_lt.mp h, rfl⟩

theorem Opened.trailer_lt (h : Opened s) (hb : s.clusterBits ≤ 1 ∨ 32 ≤ s.clusterBits) :
    s.clusterSize < sub32 s.clusterSize 4 + 4 := by
  rw [sub32]
  rcases hb with hb | hb
  · rw [h.clusterSize_eq (by omega)]
    generalize s.clusterBits = b at hb
    interval_cases b <;> decide
  · rw [h.clusterSize_zero hb]
    decide

theorem Opened.trailer_eq (h : Opened s) (hb : 2 ≤ s.clusterBits) (hb' : s.clusterBits < 32) :
    sub32 s.clusterSize 4 + 4 = s.clusterSize := by
  have hlt : 2 ^ s.clusterBits < 2 ^ 32 := Nat.pow_lt_pow_right (by norm_num) hb'
  have hle : 2 ^ 2 ≤ 2 ^ s.clusterBits := Nat.pow_le_pow_right (by norm_num) hb
  rw [h.clusterSize_eq hb', sub32]
  omega

theorem meets_entries {buf : List UInt8} :
    Act.Meets (entries buf) s
      (fun _ s' => (∀ j < s.l2Entries, 8 * j % 2 ^ 32 + 8 ≤ buf.length) ∧ s' = s)
      fun e s' => e = .sliceBounds ∧ (∃ j < s.l2Entries, buf.length < 8 * j % 2 ^ 32 + 8) ∧
        s' = s := by
  unfold entries
  rw [Act.meets_bind, Act.meets_get]
  apply Act.meets_ite
  · intro h
    exact ⟨rfl, h, rfl⟩
  · intro h
    refine ⟨fun j hj => ?_, rfl⟩
    by_contra hlt
    exact h ⟨j, hj, not_le.mp hlt⟩

theorem Opened.bits_of_trailer_le (h : Opened s) (h3 : s.clusterBits ≠ 3)
    (hle : sub32 s.clusterSize 4 + 4 ≤ s.clusterSize) : s.clusterBits = 2 ∨ Sized s := by
  have hb : ¬ (s.clusterBits ≤ 1 ∨ 32 ≤ s.clusterBits) := fun hb =>
    absurd (h.trailer_lt hb) (not_lt.mpr hle)
  unfold Sized
  omega

theorem not_isError {e : Stop} (h : ∀ q, e ≠ .error q) : ¬ e.IsError := fun ⟨q, hq⟩ => h q hq

theorem meets_verifyCrc {i trailer : ℕ} {buf : List UInt8} :
    Act.Meets (verifyCrc i buf trailer) s
      (fun _ s' => (trailer + 4 ≤ buf.length ∧ getBE 4 buf trailer = trailerCrc buf trailer) ∧
        s' = s)
      fun e s' => (buf.length < trailer + 4 ∧ e = .sliceBounds ∨ trailer + 4 ≤ buf.length ∧
        getBE 4 buf trailer ≠ trailerCrc buf trailer ∧ e.IsError) ∧ s' = s := by
  unfold verifyCrc
  rw [Act.meets_bind]
  apply meets_field.imp
  · intro stored s' hs
    obtain ⟨rfl, hle, rfl⟩ := hs
    apply Act.meets_ite
    · intro hne
      exact ⟨.inr ⟨hle, hne, _, rfl⟩, rfl⟩
    · intro he
      exact ⟨⟨hle, not_not.mp he⟩, rfl⟩
  · intro e s' he
    exact ⟨.inl ⟨he.2.1, he.1⟩, he.2.2⟩

theorem Opened.refused_of_none (h : Opened s) (h3 : s.clusterBits ≠ 3) {i : ℕ}
    (hread : s.f.readFull (s.l1Table i) s.clusterSize = none) : Sized s ∨ Refused s i := by
  by_cases hb : s.clusterBits ≤ 2
  · refine .inr (.inl ⟨hb, ?_⟩)
    intro buf hbuf
    rw [hread] at hbuf
    cases hbuf
  · by_cases hb' : 32 ≤ s.clusterBits
    · refine .inr (.inr ⟨hb', ?_⟩)
      by_contra hoff
      rw [h.clusterSize_zero hb', File.readFull_zero _ (not_le.mp hoff)] at hread
      cases hread
    · exact .inl ⟨by omega, by omega⟩

theorem Opened.not_refused (h : Opened s) {i : ℕ} {buf : List UInt8}
    (hread : s.f.readFull (s.l1Table i) s.clusterSize = some buf)
    (hlt : s.clusterSize < sub32 s.clusterSize 4 + 4) : ¬ (Sized s ∨ Refused s i) := by
  intro hs
  rcases hs with hs | ⟨hb, hs⟩ | ⟨hb, hs⟩
  · exact absurd (h.trailer_eq (by have := hs.1; omega) hs.2) (by omega)
  · have hb := (hs buf hread).1
    exact absurd (h.trailer_eq (by omega) (by omega)) (by omega)
  · rw [File.readFull_negative _ _ hs] at hread
    cases hread

theorem Opened.trailer_two (h : Opened s) (hb : s.clusterBits = 2) :
    sub32 s.clusterSize 4 = 0 := by
  have := h.trailer_eq (by omega) (by omega)
  rw [h.clusterSize_eq (by omega), hb] at this ⊢
  omega

theorem trailerCrc_zero (buf : List UInt8) : trailerCrc buf 0 = 0 := by
  rw [trailerCrc, List.take_zero]
  rfl

theorem Opened.entries_fit (h : Opened s) (hs : Sized s) {j : ℕ} (hj : j < s.l2Entries) :
    8 * j % 2 ^ 32 + 8 ≤ s.clusterSize := by
  have := h.eight_mul_l2Entries hs.1 hs.2
  have := Nat.mod_le (8 * j) (2 ^ 32)
  rw [h.clusterSize_eq hs.2]
  omega

theorem meets_loadL2 (h : Opened s) (h3 : s.clusterBits ≠ 3) (i : ℕ) :
    Act.Meets (loadL2 i) s (fun _ s' => s' = s ∧ Sized s)
      fun e s' => s' = s ∧ (e.IsError ↔ Sized s ∨ Refused s i) := by
  unfold loadL2
  rw [Act.meets_bind, Act.meets_get, Act.meets_bind]
  apply meets_readFile.imp
  · intro buf s' hread
    obtain ⟨hread, rfl⟩ := hread
    have hlen := File.length_readFull hread
    rw [Act.meets_bind]
    apply meets_verifyCrc.imp
    · intro _ t ht
      obtain ⟨⟨hle, hcrc⟩, rfl⟩ := ht
      rw [hlen] at hle
      apply meets_entries.imp
      · intro l2 t ht
        obtain ⟨hfit, rfl⟩ := ht
        refine ⟨rfl, (h.bits_of_trailer_le h3 hle).resolve_left ?_⟩
        -- the first entry does not fit into four bytes
        intro hb
        have := hfit 0 (by rw [h.l2Entries_wrapped (by omega)]; norm_num)
        rw [hlen, h.clusterSize_eq (by omega), hb] at this
        omega
      · intro e t ht
        obtain ⟨rfl, ⟨j, hj, hlt⟩, rfl⟩ := ht
        refine ⟨rfl, iff_of_false (not_isError nofun) ?_⟩
        intro hs
        rcases hs with hs | ⟨hb, hs⟩ | ⟨hb, hs⟩
        · exact absurd (h.entries_fit hs hj) (by omega)
        · obtain ⟨hb, hne⟩ := hs buf hread
          rw [h.trailer_two hb, trailerCrc_zero] at hcrc
          exact hne hcrc
        · rw [File.readFull_negative _ _ hs] at hread
          cases hread
    · intro e t ht
      obtain ⟨he, rfl⟩ := ht
      refine ⟨rfl, ?_⟩
      rw [hlen] at he
      rcases he with ⟨hlt, rfl⟩ | ⟨hle, hne, he⟩
      · exact iff_of_false (not_isError nofun) (h.not_refused hread hlt)
      · refine iff_of_true he ((h.bits_of_trailer_le h3 hle).symm.imp_right fun hb => .inl ?_)
        refine ⟨hb.le, fun buf' hbuf' => ⟨hb, ?_⟩⟩
        rw [hread] at hbuf'
        cases hbuf'
        rwa [h.trailer_two hb, trailerCrc_zero] at hne
  · intro e s' he
    obtain ⟨hread, rfl, rfl⟩ := he
    exact ⟨rfl, iff_of_true ⟨_, rfl⟩ (h.refused_of_none h3 hread)⟩

/-- The image after some reads: a table is in the cache only if it was loaded. -/
def Kept (img s : QCow2Image) : Prop :=
  ∃ c, s = { img with l2Cache := c } ∧ (¬ Sized img → ∀ i, c i = none)

theorem Opened.of_kept (h : Opened img) (hs : Kept img s) : Opened s := by
  obtain ⟨c, rfl, -⟩ := hs
  exact ⟨h.clusterSize, h.l2Entries, h.l1Size⟩

theorem Opened.l2Entries_pos (h : Opened img) (h3 : img.clusterBits ≠ 3) : 0 < img.l2Entries := by
  by_cases hb : img.clusterBits ≤ 2 ∨ 32 ≤ img.clusterBits
  · rw [h.l2Entries_wrapped hb]
    norm_num
  · have heq := h.eight_mul_l2Entries (by omega) (by omega)
    have hle : 2 ^ 4 ≤ 2 ^ img.clusterBits := Nat.pow_le_pow_right (by norm_num) (by omega)
    omega

theorem meets_getL2 (h : Opened img) (h3 : img.clusterBits ≠ 3) (hs : Kept img s) {i : ℕ}
    (hi : i < img.l1Size) (h0 : img.l1Table i ≠ 0) :
    Act.Meets (getL2 i) s (fun _ s' => Kept img s' ∧ Sized img)
      fun e s' => Kept img s' ∧ (e.IsError ↔ Sized img ∨ Refused img i) := by
  have ho := h.of_kept hs
  have hkept := hs
  obtain ⟨c, rfl, hcold⟩ := hs
  unfold getL2
  rw [Act.meets_bind, Act.meets_get]
  cases hc : c i with
  | some l2 =>
    simp only [hc]
    refine ⟨hkept, ?_⟩
    by_contra hn
    rw [hcold hn i] at hc
    cases hc
  | none =>
    simp only [hc]
    rw [if_pos ⟨hi, h0⟩, Act.meets_bind]
    apply (meets_loadL2 ho h3 i).imp
    · intro l2 s' hl2
      obtain ⟨rfl, hsized⟩ := hl2
      exact ⟨⟨_, rfl, fun hn => absurd hsized hn⟩, hsized⟩
    · intro e s' he
      obtain ⟨rfl, he⟩ := he
      exact ⟨hkept, he⟩

theorem meets_readEntry (l2Entry : ℕ) :
    Act.Meets (readEntry z l2Entry) s (fun d s' => s' = s ∧ d.length = s.clusterSize)
      fun e s' => s' = s ∧ e.IsError := by
  unfold readEntry
  rw [Act.meets_bind, Act.meets_get]
  apply Act.meets_ite
  · intro _
    rw [Act.meets_bind]
    apply meets_readFile.imp
    · intro buf s' hbuf
      obtain ⟨-, rfl⟩ := hbuf
      rw [Act.meets_bind]
      apply meets_readFile.imp
      · intro compData t hcomp
        obtain ⟨-, rfl⟩ := hcomp
        cases z.decompress compData t.clusterSize with
        | none => exact ⟨rfl, _, rfl⟩
        | some data =>
          apply Act.meets_ite
          · intro _
            exact ⟨rfl, _, rfl⟩
          · intro hlen
            exact ⟨rfl, not_not.mp hlen⟩
      · intro e t he
        exact ⟨he.2.2, _, he.2.1⟩
    · intro e t he
      exact ⟨he.2.2, _, he.2.1⟩
  · intro _
    apply meets_readFile.imp
    · intro bs t hbs
      exact ⟨hbs.2, File.length_readFull hbs.1⟩
    · intro e t he
      exact ⟨he.2.2, _, he.2.1⟩

/-- The index of a cluster in the L1 table. -/
def l1Index (img : QCow2Image) (clusterIdx : ℕ) : ℕ := clusterIdx / img.l2Entries % 2 ^ 32

theorem meets_readCluster (h : Opened img) (h3 : img.clusterBits ≠ 3) (hs : Kept img s)
    (k : ℕ) :
    Act.Meets (readCluster z k) s
      (fun d s' => Kept img s' ∧ d.length = img.clusterSize ∧
        (Sized img ∨ img.l1Size ≤ l1Index img k ∨ img.l1Table (l1Index img k) = 0))
      fun e s' => Kept img s' ∧ (l1Index img k < img.l1Size ∧ img.l1Table (l1Index img k) ≠ 0) ∧
        (e.IsError ↔ Sized img ∨ Refused img (l1Index img k)) := by
  have hget : ∀ {i}, i < img.l1Size → img.l1Table i ≠ 0 → _ :=
    fun hi h0 => meets_getL2 h h3 hs hi h0
  have hkept := hs
  obtain ⟨c, rfl, hcold⟩ := hs
  unfold readCluster
  rw [Act.meets_bind, Act.meets_get, if_neg (h.l2Entries_pos h3).ne']
  apply Act.meets_ite
  · intro hmiss
    exact ⟨hkept, List.length_replicate, .inr hmiss⟩
  · intro hhit
    rw [not_or, not_le] at hhit
    rw [Act.meets_bind]
    apply (hget hhit.1 hhit.2).imp
    · intro l2 s' hl2
      obtain ⟨hs', hsized⟩ := hl2
      apply Act.meets_ite
      · intro _
        exact ⟨hs', List.length_replicate, .inl hsized⟩
      · intro _
        apply (meets_readEntry _).imp
        · intro d t hd
          obtain ⟨rfl, hlen⟩ := hd
          obtain ⟨c', rfl, -⟩ := id hs'
          exact ⟨hs', hlen, .inl hsized⟩
        · intro e t he
          obtain ⟨rfl, he⟩ := he
          exact ⟨hs', hhit, iff_of_true he (.inl hsized)⟩
    · intro e s' he
      exact ⟨he.1, hhit, he.2⟩

theorem ends_iff {n : ℕ} {m : CheckedM (List UInt8)} :
    Ends n (m s).1 ↔ Act.Meets m s (fun d _ => d.length = n) fun e _ => e.IsError := by
  unfold Act.Meets
  generalize m s = r
  rcases r with ⟨e | d, t⟩
  · cases e <;> simp [Ends, Stop.IsError]
  · rfl

theorem meets_readLoop_zero {fuel off : ℕ} {acc : List UInt8} {Q : List UInt8 → QCow2Image → Prop}
    {E : Stop → QCow2Image → Prop} (hQ : Q acc s) :
    Act.Meets (readLoop z fuel off acc 0) s Q E := by
  cases fuel <;> exact hQ

theorem meets_readLoop_succ {fuel off rem : ℕ} {acc : List UInt8}
    {Q : List UInt8 → QCow2Image → Prop} {E : Stop → QCow2Image → Prop} (hs : Kept img s)
    (h : Act.Meets (readCluster z ((off % W64) >>> img.clusterBits)) s
      (fun d t => ∀ offInCluster, offInCluster = off % W64 &&& sub32 img.clusterSize 1 →
        ∀ copyLen : ℤ, copyLen = min ((img.clusterSize : ℤ) - offInCluster) (rem + 1) →
        if copyLen < 0 ∨ (d.length : ℤ) < offInCluster + copyLen then E .sliceBounds t
        else Act.Meets (readLoop z fuel (off + copyLen.toNat)
          (acc ++ (d.drop offInCluster).take copyLen.toNat) (rem + 1 - copyLen.toNat)) t Q E) E) :
    Act.Meets (readLoop z (fuel + 1) off acc (rem + 1)) s Q E := by
  obtain ⟨c, rfl, -⟩ := hs
  rw [readLoop, Act.meets_bind, Act.meets_get, Act.meets_bind]
  apply h.post
  intro d t hd
  have hd := hd _ rfl _ rfl
  split_ifs at hd ⊢ with hc
  · exact hd
  · exact hd

theorem meets_readLoop_kept (h : Opened img) (h3 : img.clusterBits ≠ 3) (hs : Kept img s)
    (fuel off : ℕ) (acc : List UInt8) (rem : ℕ) :
    Act.Meets (readLoop z fuel off acc rem) s (fun _ => Kept img) fun _ => Kept img := by
  induction fuel generalizing s off acc rem with
  | zero =>
    cases rem with
    | zero => exact hs
    | succ rem => exact hs
  | succ fuel ih =>
    cases rem with
    | zero => exact hs
    | succ rem =>
      apply meets_readLoop_succ hs
      apply (meets_readCluster h h3 hs _).imp
      · intro d t hd offInCluster _ copyLen _
        split_ifs
        · exact hd.1
        · exact ih hd.1 _ _ _
      · intro e t he
        exact he.1

theorem kept_afterReads (h : Opened img) (h3 : img.clusterBits ≠ 3) (pre : List (ℕ × ℕ × ℕ))
    (hs : Kept img s) : Kept img (afterReads z s pre) := by
  induction pre generalizing s with
  | nil => exact hs
  | cons r pre ih =>
    apply ih
    have := meets_readLoop_kept (z := z) h h3 hs r.1 r.2.1 [] r.2.2
    unfold Act.Meets at this
    change Kept img (readLoop z r.1 r.2.1 [] r.2.2 s).2
    generalize readLoop z r.1 r.2.1 [] r.2.2 s = res at this ⊢
    rcases res with ⟨_ | _, _⟩ <;> exact this

theorem Opened.mask_eq (h : Opened img) (hb : img.clusterBits < 32) (a : ℕ) :
    a &&& sub32 img.clusterSize 1 = a % img.clusterSize := by
  have hlt : 2 ^ img.clusterBits < 2 ^ 32 := Nat.pow_lt_pow_right (by norm_num) hb
  have hpos := Nat.two_pow_pos img.clusterBits
  have hsub : sub32 img.clusterSize 1 = 2 ^ img.clusterBits - 1 := by
    rw [h.clusterSize_eq hb, sub32]
    omega
  rw [hsub, Nat.and_two_pow_sub_one_eq_mod, h.clusterSize_eq hb]

theorem meets_readLoop (h : Opened img) (h3 : img.clusterBits ≠ 3) (hb : img.clusterBits < 32)
    (hsafe : ∀ i < img.l1Size, img.l1Table i ≠ 0 → Sized img ∨ Refused img i)
    (hs : Kept img s) {fuel off rem : ℕ} {acc : List UInt8} (hfuel : rem ≤ fuel) :
    Act.Meets (readLoop z fuel off acc rem) s (fun d _ => d.length = acc.length + rem)
      fun e _ => e.IsError := by
  induction fuel generalizing s off acc rem with
  | zero =>
    obtain rfl : rem = 0 := by omega
    exact meets_readLoop_zero rfl
  | succ fuel ih =>
    cases rem with
    | zero => exact meets_readLoop_zero rfl
    | succ rem =>
      apply meets_readLoop_succ hs
      apply (meets_readCluster h h3 hs _).imp
      · intro d t hd offInCluster hoff copyLen hcopy
        obtain ⟨ht, hlen, -⟩ := hd
        rw [h.mask_eq hb] at hoff
        have hlt : offInCluster < img.clusterSize := by
          rw [hoff]
          apply Nat.mod_lt
          rw [h.clusterSize_eq hb]
          exact Nat.two_pow_pos _
        obtain ⟨len, rfl⟩ : ∃ len : ℕ, copyLen = len := ⟨copyLen.toNat, by omega⟩
        rw [if_neg (by omega), Int.toNat_natCast]
        apply (ih ht (by omega)).post
        intro bs _ hbs
        rw [hbs, List.length_append, List.length_take, List.length_drop]
        omega
      · intro e t he
        exact he.2.2.mpr (hsafe _ he.2.1.1 he.2.1.2)

/-- Offsets whose cluster belongs to the entry `i`, when a table has as many entries as 32 bits
allow. -/
def offsetOf (img : QCow2Image) (i : ℕ) : ℕ := i * (2 ^ 29 - 1) * 2 ^ img.clusterBits

theorem Opened.l1Index_offsetOf (h : Opened img)
    (hb : img.clusterBits ≤ 2 ∨ 32 ≤ img.clusterBits) {i : ℕ} (hi : i < 2 ^ 32)
    (hoff : offsetOf img i < 2 ^ 63) :
    l1Index img ((offsetOf img i % W64) >>> img.clusterBits) = i := by
  rw [Nat.mod_eq_of_lt (hoff.trans (by norm_num [W64])), l1Index, h.l2Entries_wrapped hb,
    Nat.shiftRight_eq_div_pow, offsetOf, Nat.mul_div_cancel _ (Nat.two_pow_pos _),
    Nat.mul_div_cancel _ (by norm_num), Nat.mod_eq_of_lt hi]

theorem offsetOf_lt {i : ℕ} (hb : 32 ≤ img.clusterBits) (hi : i ≤ topIndex img.clusterBits) :
    i < 2 ^ 32 ∧ offsetOf img i < 2 ^ 63 := by
  have hpos := Nat.two_pow_pos img.clusterBits
  have hpow : 2 ^ 32 ≤ 2 ^ img.clusterBits := Nat.pow_le_pow_right (by norm_num) hb
  rw [topIndex, Nat.shiftRight_eq_div_pow, Nat.le_div_iff_mul_le (by norm_num),
    Nat.le_div_iff_mul_le hpos] at hi
  have hle := Nat.mul_le_mul_left (i * (2 ^ 29 - 1)) hpow
  unfold offsetOf
  omega

theorem Opened.mask_offsetOf (h : Opened img) (hb : 32 ≤ img.clusterBits) {i : ℕ}
    (hoff : offsetOf img i < 2 ^ 63) :
    offsetOf img i % W64 &&& sub32 img.clusterSize 1 = 0 := by
  have hsub : sub32 img.clusterSize 1 = 2 ^ 32 - 1 := by
    rw [h.clusterSize_zero hb, sub32]
    rfl
  have hdvd : 2 ^ 32 ∣ offsetOf img i := (pow_dvd_pow 2 hb).mul_left _
  rw [hsub, Nat.and_two_pow_sub_one_eq_mod, Nat.mod_eq_of_lt (hoff.trans (by norm_num [W64])),
    Nat.mod_eq_zero_of_dvd hdvd]

/-- A read that loads a table of an improper size stops, and one without a table does not
advance when the clusters have no bytes. -/
theorem meets_readLoop_stuck (h : Opened img) (hb : img.clusterBits ≤ 2 ∨ 32 ≤ img.clusterBits)
    {i : ℕ} (hi : i < 2 ^ 32) (hoff : offsetOf img i < 2 ^ 63)
    (hbad : i < img.l1Size → ¬ Refused img i)
    (hstuck : 32 ≤ img.clusterBits ∨ i < img.l1Size ∧ img.l1Table i ≠ 0)
    (hs : Kept img s) (fuel : ℕ) :
    Act.Meets (readLoop z fuel (offsetOf img i) [] 1) s (fun _ _ => False)
      fun e _ => ¬ e.IsError := by
  have hsized : ¬ Sized img := by
    unfold Sized
    omega
  induction fuel generalizing s with
  | zero => exact not_isError nofun
  | succ fuel ih =>
    apply meets_readLoop_succ hs
    apply (meets_readCluster h (by omega) hs _).imp
    · intro d t hd offInCluster hin copyLen hcopy
      rw [h.l1Index_offsetOf hb hi hoff] at hd
      obtain ⟨ht, hlen, hd⟩ := hd
      rcases hstuck with hw | hhit
      · rw [h.mask_offsetOf hw hoff] at hin
        rw [h.clusterSize_zero hw] at hlen hcopy
        subst hin
        obtain rfl : copyLen = 0 := by omega
        rw [if_neg (by omega)]
        exact ih ht
      · rcases hd with hd | hd | hd
        · exact absurd hd hsized
        · exact absurd hd (not_le.mpr hhit.1)
        · exact absurd hd hhit.2
    · intro e t he
      rw [h.l1Index_offsetOf hb hi hoff] at he
      rw [he.2.2]
      exact not_or.mpr ⟨hsized, hbad he.2.1.1⟩

theorem meets_readLoop_divide (h : Opened img) (hs : Kept img img) (h3 : img.clusterBits = 3)
    (fuel : ℕ) :
    Act.Meets (readLoop z fuel 0 [] 1) img (fun _ _ => False) fun e _ => ¬ e.IsError := by
  cases fuel with
  | zero => exact not_isError nofun
  | succ fuel =>
    apply meets_readLoop_succ hs
    unfold readCluster
    rw [Act.meets_bind, Act.meets_get, if_pos (h.l2Entries_three h3)]
    exact not_isError nofun

theorem meets_readLoop_refused (h : Opened img) (hb : 32 ≤ img.clusterBits)
    (hall : ∀ i ≤ topIndex img.clusterBits, i < img.l1Size ∧ Refused img i) (hs : Kept img s)
    {off : ℕ} (hoff : off < 2 ^ 63) (n : ℕ) :
    Act.Meets (readLoop z 1 off [] n) s (fun d _ => d.length = n) fun e _ => e.IsError := by
  cases n with
  | zero => exact meets_readLoop_zero rfl
  | succ n =>
    have htop : l1Index img ((off % W64) >>> img.clusterBits) ≤ topIndex img.clusterBits := by
      unfold l1Index topIndex
      rw [h.l2Entries_wrapped (.inr hb), Nat.mod_eq_of_lt (hoff.trans (by norm_num [W64])),
        Nat.shiftRight_eq_div_pow, Nat.shiftRight_eq_div_pow]
      apply (Nat.mod_le _ _).trans
      exact Nat.div_le_div_right (Nat.div_le_div_right (by omega))
    obtain ⟨hlt, href⟩ := hall _ htop
    apply meets_readLoop_succ hs
    apply (meets_readCluster h (by omega) hs _).imp
    · intro d t hd
      exfalso
      rcases hd.2.2 with hd | hd | hd
      · exact absurd hd.2 (not_lt.mpr hb)
      · omega
      · rcases href with href | href
        · omega
        · omega
    · intro e t he
      exact he.2.2.mpr (.inr href)

/-- For every file that is opened, all reads of it end well exactly when the header and the L1
table are as `Readable` says. -/
theorem readsSafely_iff {f : File} (hopen : openQCow2File f = .ok img) (z : Codec) :
    ReadsSafely z img ↔ Readable img := by
  obtain ⟨h, hcold⟩ := opened hopen
  have hs : Kept img img := ⟨img.l2Cache, rfl, fun _ => hcold⟩
  constructor
  · intro hsafe
    have hfails : ∀ off, off < 2 ^ 63 → ¬ ∀ fuel, Act.Meets (readLoop z fuel off [] 1) img
        (fun _ _ => False) fun e _ => ¬ e.IsError := by
      intro off hoff hall
      obtain ⟨fuel, hends⟩ := hsafe [] off 1 hoff
      have hboth := (ends_iff.mp hends).and (hall fuel)
      exact (hboth.imp (fun _ _ ha => ha.2) fun _ _ ha => ha.2 ha.1 : Act.Meets _ _
        (fun _ _ => False) fun _ _ => False).exists_ok.elim fun _ ⟨_, _, hF⟩ => hF
    by_cases hsized : Sized img
    · exact .inl hsized
    · have h3 : img.clusterBits ≠ 3 := fun h3 =>
        hfails 0 (by norm_num) (meets_readLoop_divide h hs h3)
      by_cases hb : img.clusterBits ≤ 2
      · refine .inr (.inl ⟨hb, fun i hi h0 => ?_⟩)
        by_contra hbad
        have hsize := h.l1Size
        have hoff : offsetOf img i < 2 ^ 63 := by
          have hpow : 2 ^ img.clusterBits ≤ 2 ^ 2 := Nat.pow_le_pow_right (by norm_num) hb
          have := Nat.mul_le_mul_left (i * (2 ^ 29 - 1)) hpow
          unfold offsetOf
          omega
        exact hfails _ hoff (meets_readLoop_stuck h (.inl hb) (by omega) hoff (fun _ => hbad)
          (.inr ⟨hi, h0⟩) hs)
      · have hb' : 32 ≤ img.clusterBits := by
          unfold Sized at hsized
          omega
        refine .inr (.inr ⟨hb', fun i hi => ?_⟩)
        by_contra hbad
        obtain ⟨hi', hoff⟩ := offsetOf_lt hb' hi
        exact hfails _ hoff (meets_readLoop_stuck h (.inr hb') hi' hoff
          (fun hlt href => hbad ⟨hlt, href⟩) (.inl hb') hs)
  · intro hread pre off n hoff
    have hpre : img.clusterBits ≠ 3 → Kept img (afterReads z img pre) := fun h3 =>
      kept_afterReads h h3 pre hs
    rcases hread with hsized | ⟨hb, hall⟩ | ⟨hb, hall⟩
    · refine ⟨n, ends_iff.mpr ?_⟩
      have hb := hsized.1
      exact (meets_readLoop h (by omega) hsized.2 (fun _ _ _ => .inl hsized) (hpre (by omega))
        le_rfl).post fun d _ hd => by simpa using hd
    · refine ⟨n, ends_iff.mpr ?_⟩
      exact (meets_readLoop h (by omega) (by omega) (fun i hi h0 => .inr (hall i hi h0))
        (hpre (by omega)) le_rfl).post fun d _ hd => by simpa using hd
    · exact ⟨1, ends_iff.mpr (meets_readLoop_refused h hb hall (hpre (by omega)) hoff n)⟩

/-- A file with a header and no L1 table. -/
def bareFile (clusterBits : ℕ) : File :=
  (File.empty headerSize fun _ => none).put 0 (newHeader clusterBits 0 headerSize 0 headerSize)

theorem openQCow2File_bareFile {clusterBits : ℕ} (hb : clusterBits < 2 ^ 32) :
    ∃ img, openQCow2File (bareFile clusterBits) = .ok img ∧ img.clusterBits = clusterBits ∧
      img.l1Size = 0 := by
  have hlen := length_newHeader clusterBits 0 headerSize 0 headerSize
  have hne : newHeader clusterBits 0 headerSize 0 headerSize ≠ [] :=
    List.ne_nil_of_length_pos (by rw [hlen]; norm_num [headerSize])
  have hread : (bareFile clusterBits).readFull 0 headerSize = some _ :=
    (if_neg (by norm_num)).trans ((if_neg (by decide)).trans ((File.reads_put hne).readAt hlen))
  have hfields : HeaderFields (newHeader clusterBits 0 headerSize 0 headerSize) clusterBits 0
      headerSize 0 headerSize 0 :=
    headerFields_newHeader hb (by norm_num) (by norm_num [headerSize]) (by norm_num)
      (by norm_num [headerSize])
  unfold openQCow2File
  rw [hread]
  dsimp only
  rw [if_neg (not_not.mpr hfields.magic), if_neg (not_not.mpr hfields.version),
    hfields.l1Offset, hfields.l1Size]
  exact ⟨_, rfl, hfields.clusterBits, rfl⟩

/-- A file with the header of a valid image and an L1 table. -/
def tableFile : File :=
  ((File.empty 65536 fun _ => none).put 0 (newHeader 16 65536 headerSize 1 65536)).put headerSize
    (beBytes 8 0)

theorem tableFile_reads_safely :
    ∃ img, openQCow2File tableFile = .ok img ∧ img.l1Size = 1 ∧ ∀ z, ReadsSafely z img := by
  have hopens : (openQCow2File tableFile).toOption.map (fun img => (img.clusterBits, img.l1Size)) =
      some (16, 1) := by decide +kernel
  cases hopen : openQCow2File tableFile with
  | error e =>
    rw [hopen] at hopens
    cases hopens
  | ok img =>
    rw [hopen] at hopens
    obtain ⟨hb, hl⟩ := Prod.mk.inj (Option.some.inj hopens)
    exact ⟨img, rfl, hl, fun z => (readsSafely_iff hopen z).mpr (.inl ⟨by omega, by omega⟩)⟩

theorem readLoop_no_progress (h : Opened img) (hb : 32 ≤ img.clusterBits) (hl : img.l1Size = 0)
    (fuel : ℕ) : readLoop z fuel 0 [] 1 img = (.error .outOfFuel, img) := by
  induction fuel with
  | zero => rfl
  | succ fuel ih =>
    have hread : readCluster z ((0 % W64) >>> img.clusterBits) img = (.ok [], img) := by
      unfold readCluster
      rw [Act.get_bind_apply, if_neg (h.l2Entries_pos (by omega)).ne',
        if_pos (.inl (hl.le.trans (Nat.zero_le _))), h.clusterSize_zero hb]
      rfl
    rw [readLoop, Act.get_bind_apply, Act.bind_of_ok hread, h.clusterSize_zero hb, Nat.zero_mod,
      Nat.zero_and]
    exact ih

/-- With `2^32` bytes a cluster the size is zero and `ReadAt` never ends; with eight, a table has
no entries and `ReadAt` divides by their number. -/
theorem bareFile_stops :
    (∃ img, openQCow2File (bareFile 32) = .ok img ∧
      ∀ z fuel, (readAt z fuel 0 1 img).1 = .error .outOfFuel) ∧
    ∃ img, openQCow2File (bareFile 3) = .ok img ∧
      ∀ z fuel, (readAt z (fuel + 1) 0 1 img).1 = .error .divideByZero := by
  constructor
  · obtain ⟨img, hopen, hb, hl⟩ := openQCow2File_bareFile (show 32 < 2 ^ 32 by norm_num)
    refine ⟨img, hopen, fun z fuel => ?_⟩
    rw [readAt, readLoop_no_progress (opened hopen).1 hb.ge hl]
  · obtain ⟨img, hopen, hb, -⟩ := openQCow2File_bareFile (show 3 < 2 ^ 32 by norm_num)
    refine ⟨img, hopen, fun z fuel => ?_⟩
    have hread : readCluster z ((0 % W64) >>> img.clusterBits) img =
        (.error .divideByZero, img) := by
      unfold readCluster
      rw [Act.get_bind_apply, if_pos ((opened hopen).1.l2Entries_three hb)]
      rfl
    rw [readAt, readLoop, Act.get_bind_apply, Act.bind_of_error hread]

end Lbd.QCow2.Checked
