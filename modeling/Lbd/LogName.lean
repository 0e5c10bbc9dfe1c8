import Mathlib

/-!
# Log file names

A segment is stored as `disk.<label>.log`. A listing is sorted by file name while
the compactor compares labels, so the two orders have to agree. They do for
labels of one length, as `TAI64NLabel` (24 hexadecimal digits) makes them. The
directory part, common to all files of a store, is left out.
-/

namespace Lbd

abbrev Name := List Char

namespace LogName

def disk : Name := ['d', 'i', 's', 'k', '.']

def log : Name := ['.', 'l', 'o', 'g']

def logPath (label : Name) : Name := disk ++ label ++ log

def tmp : Name := ['.', 't', 'm', 'p']

/-- The name of a segment that is still being written. -/
def tmpPath (label : Name) : Name := logPath label ++ tmp

def trimStart (p s : Name) : Name := if p.isPrefixOf s then s.drop p.length else s

def trimEnd (p s : Name) : Name := if p.isSuffixOf s then s.take (s.length - p.length) else s

def labelFromLogPath (name : Name) : Name := trimEnd log (trimStart disk name)

@[simp] theorem labelFromLogPath_logPath (label : Name) :
    labelFromLogPath (logPath label) = label := by
  have hstart : trimStart disk (logPath label) = label ++ log := by
    simp [trimStart, logPath, disk]
  rw [labelFromLogPath, hstart]
  simp [trimEnd]

theorem labelFromLogPath_tmpPath (label : Name) :
    labelFromLogPath (tmpPath label) = label ++ (log ++ tmp) := by
  have hstart : trimStart disk (tmpPath label) = label ++ (log ++ tmp) := by
    simp [trimStart, tmpPath, logPath, disk]
  have hsuffix : ¬ log <:+ label ++ (log ++ tmp) := by
    rintro ⟨t, ht⟩
    have hlast := congrArg List.getLast? ht
    simp [log, tmp] at hlast
  rw [labelFromLogPath, hstart, trimEnd, if_neg]
  simpa using hsuffix

theorem append_lt_append_iff {a b : Name} (h : a.length = b.length) (s t : Name) :
    a ++ s < b ++ t ↔ a < b ∨ a = b ∧ s < t := by
  induction a generalizing b with
  | nil =>
    obtain rfl : b = [] := List.length_eq_zero_iff.mp h.symm
    simp
  | cons c a ih =>
    cases b with
    | nil => simp at h
    | cons d b =>
      simp only [List.cons_append, List.cons_lt_cons_iff, ih (Nat.succ.inj h), List.cons.injEq]
      tauto

theorem logPath_lt_logPath {a b : Name} (h : a.length = b.length) :
    logPath a < logPath b ↔ a < b := by
  unfold logPath
  rw [append_lt_append_iff (by simp [h]), append_lt_append_iff rfl]
  simp

/-- A file name with a label of length `n`. -/
def HasLabel (n : ℕ) (name : Name) : Prop := ∃ label, label.length = n ∧ name = logPath label

theorem hasLabel_logPath {label : Name} : HasLabel label.length (logPath label) :=
  ⟨label, rfl, rfl⟩

theorem HasLabel.label_lt_iff {n : ℕ} {a b : Name} (ha : HasLabel n a) (hb : HasLabel n b) :
    labelFromLogPath a < labelFromLogPath b ↔ a < b := by
  obtain ⟨la, hla, rfl⟩ := ha
  obtain ⟨lb, hlb, rfl⟩ := hb
  rw [labelFromLogPath_logPath, labelFromLogPath_logPath, logPath_lt_logPath (hla.trans hlb.symm)]

def hexDigit (d : ℕ) : Char := if d < 10 then Char.ofNat (48 + d) else Char.ofNat (87 + d)

/-- `n` in `w` hexadecimal digits, zero-padded. -/
def hexFixed : ℕ → ℕ → Name
  | 0, _ => []
  | w + 1, n => hexFixed w (n / 16) ++ [hexDigit (n % 16)]

/-- `TAI64NLabel` at `t` nanoseconds after the epoch. -/
@[irreducible] def tai64nLabel (t : ℕ) : Name :=
  hexFixed 16 (t / 10 ^ 9 + 0x4000000000000000) ++ hexFixed 8 (t % 10 ^ 9)

/-- The seconds of the label fit in 64 bits. -/
def ClockInRange (t : ℕ) : Prop := t / 10 ^ 9 + 0x4000000000000000 < 16 ^ 16

instance (t : ℕ) : Decidable (ClockInRange t) := inferInstanceAs (Decidable (_ < _))

@[simp] theorem length_hexFixed (w n : ℕ) : (hexFixed w n).length = w := by
  induction w generalizing n with
  | zero => rfl
  | succ w ih => simp [hexFixed, ih]

@[simp] theorem length_tai64nLabel (t : ℕ) : (tai64nLabel t).length = 24 := by
  simp [tai64nLabel]

theorem hexDigit_lt {a b : ℕ} (ha : a < 16) (hb : b < 16) : hexDigit a < hexDigit b ↔ a < b := by
  interval_cases a <;> interval_cases b <;> decide

theorem hexDigit_inj {a b : ℕ} (ha : a < 16) (hb : b < 16) (h : hexDigit a = hexDigit b) :
    a = b := by
  by_contra hne
  rcases lt_or_gt_of_ne hne with hlt | hlt
  · exact absurd h ((hexDigit_lt ha hb).mpr hlt).ne
  · exact absurd h ((hexDigit_lt hb ha).mpr hlt).ne'

theorem hexFixed_inj {w a b : ℕ} (ha : a < 16 ^ w) (hb : b < 16 ^ w)
    (h : hexFixed w a = hexFixed w b) : a = b := by
  induction w generalizing a b with
  | zero => omega
  | succ w ih =>
    rw [pow_succ] at ha hb
    obtain ⟨hhead, hlast⟩ := List.append_inj h (by simp)
    have hdiv := ih (by omega) (by omega) hhead
    have hmod : a % 16 = b % 16 := hexDigit_inj (by omega) (by omega) (by simpa using hlast)
    omega

theorem hexFixed_lt {w a b : ℕ} (ha : a < 16 ^ w) (hb : b < 16 ^ w) :
    hexFixed w a < hexFixed w b ↔ a < b := by
  induction w generalizing a b with
  | zero =>
    have : a = b := by omega
    simp [hexFixed, this]
  | succ w ih =>
    rw [pow_succ] at ha hb
    have hd : hexDigit (a % 16) < hexDigit (b % 16) ↔ a % 16 < b % 16 :=
      hexDigit_lt (by omega) (by omega)
    rw [hexFixed, hexFixed, append_lt_append_iff (by simp), ih (by omega) (by omega)]
    simp only [List.cons_lt_cons_iff, hd, lt_self_iff_false, and_false, or_false]
    constructor
    · rintro (hlt | ⟨heq, hlt⟩)
      · omega
      · have := hexFixed_inj (by omega) (by omega) heq
        omega
    · intro hlt
      rcases lt_or_eq_of_le (Nat.div_le_div_right hlt.le) with hq | hq
      · exact .inl hq
      · exact .inr ⟨by rw [hq], by omega⟩

theorem tai64nLabel_lt {s t : ℕ} (ht : ClockInRange t) (h : s < t) :
    tai64nLabel s < tai64nLabel t := by
  unfold ClockInRange at ht
  have hle : s / 10 ^ 9 ≤ t / 10 ^ 9 := Nat.div_le_div_right h.le
  unfold tai64nLabel
  rw [append_lt_append_iff (by simp), hexFixed_lt (by omega) ht, hexFixed_lt (by omega) (by omega)]
  rcases lt_or_eq_of_le hle with hq | hq
  · exact .inl (by omega)
  · exact .inr ⟨by rw [hq], by omega⟩

end LogName

end Lbd
