import Lbd.RunMap
import Lbd.Words

/-!
# The extent map of the miss handler

`extentmap.go`: which log entry last wrote each block. Block numbers are
`uint64`, so ends are computed modulo `2^64`.
-/

namespace Lbd

open RunMap

structure ExtentRef where
  logPath : String
  entryIndex : ℕ
  block : ℕ
  length : ℕ
deriving DecidableEq, Repr

/-- `StartBlock`, `NumBlocks` and `Ref`. -/
abbrev Extent := Run ExtentRef

/-- The mutex is left out: every method runs under it. -/
structure ExtentMap where
  extents : List Extent

namespace ExtentMap

def addWrite (em : ExtentMap) (block numBlocks : ℕ) (ref : ExtentRef) : ExtentMap :=
  ⟨splice W64 block numBlocks ref em.extents⟩

def removeTrim (em : ExtentMap) (block numBlocks : ℕ) : ExtentMap :=
  ⟨carve W64 block ((block + numBlocks) % W64) em.extents⟩

def lookup (em : ExtentMap) (startBlock numBlocks : ℕ) : List Extent :=
  (clip W64 startBlock ((startBlock + numBlocks) % W64) em.extents).map fun p =>
    ⟨p.1, sub64 p.2.1 p.1, p.2.2⟩

inductive Op where
  | addWrite (block numBlocks : ℕ) (ref : ExtentRef)
  | removeTrim (block numBlocks : ℕ)
deriving DecidableEq, Repr

namespace Op

def block : Op → ℕ
  | addWrite b _ _ => b
  | removeTrim b _ => b

def numBlocks : Op → ℕ
  | addWrite _ n _ => n
  | removeTrim _ n => n

/-- What a block covered by the operation holds afterwards. -/
def ref? : Op → Option ExtentRef
  | addWrite _ _ r => some r
  | removeTrim _ _ => none

def Covers (op : Op) (b : ℕ) : Prop := op.block ≤ b ∧ b < op.block + op.numBlocks

instance (op : Op) (b : ℕ) : Decidable (op.Covers b) := inferInstanceAs (Decidable (_ ∧ _))

def Valid (op : Op) : Prop := 0 < op.numBlocks ∧ op.block + op.numBlocks < W64

instance (op : Op) : Decidable op.Valid := inferInstanceAs (Decidable (_ ∧ _))

end Op

def step (em : ExtentMap) : Op → ExtentMap
  | .addWrite b n r => addWrite em b n r
  | .removeTrim b n => removeTrim em b n

def run (ops : List Op) : ExtentMap := ops.foldl step ⟨[]⟩

/-- The ref of the last operation covering `b`, if that operation is a write. -/
def lastRef (ops : List Op) (b : ℕ) : Option ExtentRef :=
  ops.foldl (fun r op => if op.Covers b then op.ref? else r) none

/-- The answer to a query of `[s, s + m)` after `ops`, as the callers rely on it. -/
structure LookupExact (ops : List Op) (s m : ℕ) (out : List Extent) : Prop where
  nonempty : ∀ x ∈ out, 0 < x.len
  increasing : out.Pairwise fun x y => x.start + x.len ≤ y.start
  inside : ∀ x ∈ out, s ≤ x.start ∧ x.start + x.len ≤ s + m
  exact : ∀ b, s ≤ b → b < s + m → ∀ r, Holds out b r ↔ lastRef ops b = some r

/-- The write does not end inside an extent that has another extent behind it. -/
def EndsClear (em : ExtentMap) : Op → Prop
  | .addWrite b n _ => EndClear W64 (b + n) em.extents
  | .removeTrim _ _ => True

instance (em : ExtentMap) : (op : Op) → Decidable (EndsClear em op)
  | .addWrite b n _ => inferInstanceAs (Decidable (EndClear W64 (b + n) em.extents))
  | .removeTrim _ _ => .isTrue trivial

/-- The query is non-empty, or does not point inside an extent. -/
def QueryClear (em : ExtentMap) (s m : ℕ) : Prop :=
  0 < m ∨ ∀ x ∈ em.extents, ¬(x.start < s ∧ s < x.stop W64)

theorem fits_step {em : ExtentMap} {op : Op} (hv : op.Valid) (h : Fits W64 em.extents) :
    Fits W64 (step em op).extents := by
  cases op with
  | addWrite b n r => exact fits_splice hv.1 hv.2 h
  | removeTrim b n => exact fits_carve h

theorem holds_step {em : ExtentMap} {op : Op} (hv : op.Valid) (h : Fits W64 em.extents)
    (b : ℕ) (r : ExtentRef) :
    Holds (step em op).extents b r ↔
      if op.Covers b then op.ref? = some r else Holds em.extents b r := by
  cases op with
  | addWrite s n v =>
    have hend : s + n < W64 := hv.2
    simp only [step, addWrite, holds_splice hend h, Op.Covers, Op.block, Op.numBlocks, Op.ref?,
      Option.some.injEq, eq_comm]
  | removeTrim s n =>
    have hend : s + n < W64 := hv.2
    simp only [step, removeTrim, Nat.mod_eq_of_lt hend, holds_carve h, Op.Covers, Op.block,
      Op.numBlocks, Op.ref?]
    split_ifs with hb <;> simp [hb]

theorem ordered_step {em : ExtentMap} {op : Op} (hv : op.Valid) (h : Fits W64 em.extents)
    (ho : Ordered em.extents) (hc : EndsClear em op) : Ordered (step em op).extents := by
  cases op with
  | addWrite b n r => exact ordered_splice hv.1 hv.2 h ho hc
  | removeTrim b n =>
    have hend : b + n < W64 := hv.2
    simp only [step, removeTrim, Nat.mod_eq_of_lt hend]
    exact ordered_carve (by omega) h ho

theorem run_append (ops : List Op) (op : Op) : run (ops ++ [op]) = step (run ops) op := by
  simp [run]

theorem lastRef_append (ops : List Op) (op : Op) (b : ℕ) :
    lastRef (ops ++ [op]) b = if op.Covers b then op.ref? else lastRef ops b := by
  simp [lastRef]

theorem run_fits {ops : List Op} (hv : ∀ op ∈ ops, op.Valid) : Fits W64 (run ops).extents := by
  induction ops using List.reverseRecOn with
  | nil => simp [run, Fits]
  | append_singleton ops op ih =>
    rw [run_append]
    exact fits_step (hv op (by simp)) (ih fun x hx => hv x (by simp [hx]))

theorem run_holds {ops : List Op} (hv : ∀ op ∈ ops, op.Valid) (b : ℕ) (r : ExtentRef) :
    Holds (run ops).extents b r ↔ lastRef ops b = some r := by
  induction ops using List.reverseRecOn with
  | nil => simp [run, Holds, lastRef]
  | append_singleton ops op ih =>
    have hpre : ∀ x ∈ ops, x.Valid := fun x hx => hv x (by simp [hx])
    rw [run_append, holds_step (hv op (by simp)) (run_fits hpre), lastRef_append, ih hpre]
    split_ifs <;> rfl

theorem run_ordered {ops : List Op} (hv : ∀ op ∈ ops, op.Valid)
    (hc : ∀ pre op, pre ++ [op] <+: ops → EndsClear (run pre) op) : Ordered (run ops).extents := by
  induction ops using List.reverseRecOn with
  | nil => simp [run, Ordered]
  | append_singleton ops op ih =>
    have hpre : ∀ x ∈ ops, x.Valid := fun x hx => hv x (by simp [hx])
    rw [run_append]
    apply ordered_step (hv op (by simp)) (run_fits hpre) _ (hc ops op List.prefix_rfl)
    exact ih hpre fun pre x hx => hc pre x (hx.trans (List.prefix_append ..))

/-- Without wrap-around a query is the clipped list, each length the true difference. -/
theorem lookup_eq {em : ExtentMap} {s m : ℕ} (h : Fits W64 em.extents) (hq : s + m < W64) :
    lookup em s m =
      (clip W64 s (s + m) em.extents).map fun p => ⟨p.1, p.2.1 - p.1, p.2.2⟩ := by
  unfold lookup
  rw [Nat.mod_eq_of_lt hq]
  apply List.map_congr_left
  intro p hp
  obtain ⟨e, he, rfl, hlo, hhi⟩ := clip_sound h hp
  have hfit := h e he
  rw [sub64_of_le (by dsimp only; omega) (by dsimp only; omega)]

theorem mem_lookup {em : ExtentMap} {s m : ℕ} (h : Fits W64 em.extents) (hq : s + m < W64)
    {x : Extent} (hx : x ∈ lookup em s m) :
    ∃ e ∈ em.extents, x.start = max e.start s ∧ x.start + x.len = min (e.start + e.len) (s + m) ∧
      s < e.start + e.len ∧ e.start < s + m := by
  rw [lookup_eq h hq] at hx
  obtain ⟨p, hp, rfl⟩ := List.mem_map.mp hx
  obtain ⟨e, he, rfl, hlo, hhi⟩ := clip_sound h hp
  have hfit := h e he
  exact ⟨e, he, rfl, by dsimp only; omega, hlo, hhi⟩

theorem holds_lookup {em : ExtentMap} {s m b : ℕ} {r : ExtentRef} (h : Fits W64 em.extents)
    (ho : Ordered em.extents) (hq : s + m < W64) (hsb : s ≤ b) (hbm : b < s + m) :
    Holds (lookup em s m) b r ↔ Holds em.extents b r := by
  rw [lookup_eq h hq, ← mem_clip_iff h ho hsb hbm]
  unfold Holds Run.Covers
  constructor
  · rintro ⟨x, hx, hb, hr⟩
    obtain ⟨p, hp, rfl⟩ := List.mem_map.mp hx
    exact ⟨p, hp, hb.1, by dsimp only at hb; omega, hr⟩
  · rintro ⟨p, hp, hpb, hbp, hr⟩
    exact ⟨_, List.mem_map_of_mem hp, ⟨hpb, by dsimp only; omega⟩, hr⟩

theorem lookup_exact {ops : List Op} (hv : ∀ op ∈ ops, op.Valid)
    (hc : ∀ pre op, pre ++ [op] <+: ops → EndsClear (run pre) op) {s m : ℕ} (hq : s + m < W64)
    (hclear : QueryClear (run ops) s m) : LookupExact ops s m (lookup (run ops) s m) := by
  have hfit := run_fits hv
  have hord := run_ordered hv hc
  refine ⟨?_, ?_, ?_, ?_⟩
  · intro x hx
    obtain ⟨e, he, hs, hstop, hlo, hhi⟩ := mem_lookup hfit hq hx
    have hefit := hfit e he
    rcases hclear with hm | hout
    · omega
    · have hin := hout e he
      rw [e.stop_eq W64 hefit.2] at hin
      omega
  · rw [lookup_eq hfit hq, List.pairwise_map]
    refine (clip_ordered hfit hord).imp_of_mem ?_
    intro p q hp _ hle
    obtain ⟨e, he, rfl, hlo, hhi⟩ := clip_sound hfit hp
    have hefit := hfit e he
    dsimp only at hle ⊢
    omega
  · intro x hx
    obtain ⟨e, he, hs, hstop, -⟩ := mem_lookup hfit hq hx
    omega
  · intro b hsb hbm r
    rw [holds_lookup hfit hord hq hsb hbm, run_holds hv]

theorem not_exact_of_not_queryClear {ops : List Op} (hv : ∀ op ∈ ops, op.Valid)
    (hc : ∀ pre op, pre ++ [op] <+: ops → EndsClear (run pre) op) {s m : ℕ} (hq : s + m < W64)
    (hclear : ¬ QueryClear (run ops) s m) : ¬ LookupExact ops s m (lookup (run ops) s m) := by
  have hfit := run_fits hv
  unfold QueryClear at hclear
  push Not at hclear
  obtain ⟨hm, e, he, hlt, hgt⟩ := hclear
  have hm0 : m = 0 := by omega
  subst hm0
  rw [e.stop_eq W64 (hfit e he).2] at hgt
  intro hex
  have hmem := clip_complete hfit (run_ordered hv hc) he hgt hlt
  rw [lookup_eq hfit hq] at hex
  have hpos := hex.nonempty _ (List.mem_map_of_mem hmem)
  dsimp only at hpos
  omega

/-- A write that ends inside an extent with another one behind it is not found
by a query of its own range. -/
theorem not_exact_of_not_endsClear {ops : List Op} (hv : ∀ op ∈ ops, op.Valid)
    (hord : Ordered (run ops).extents) {op : Op} (hop : op.Valid)
    (hclear : ¬ EndsClear (run ops) op) :
    ¬ LookupExact (ops ++ [op]) op.block op.numBlocks
      (lookup (run (ops ++ [op])) op.block op.numBlocks) := by
  cases op with
  | removeTrim s n => exact absurd trivial hclear
  | addWrite s n r =>
    intro hex
    have hn : 0 < n := hop.1
    have hend : s + n < W64 := hop.2
    have hnil : lookup (run (ops ++ [.addWrite s n r])) s n = [] := by
      rw [run_append]
      simp only [lookup, step, addWrite, Nat.mod_eq_of_lt hend]
      rw [clip_splice_of_not_endClear hn hend (run_fits hv) hord hclear]
      rfl
    have hlast : lastRef (ops ++ [.addWrite s n r]) s = some r := by
      rw [lastRef_append, if_pos ⟨le_rfl, by simp only [Op.block, Op.numBlocks]; omega⟩]
      rfl
    have hh := (hex.exact s le_rfl (by simp only [Op.block, Op.numBlocks]; omega) r).mpr hlast
    simp only [Op.block, Op.numBlocks, hnil] at hh
    simp [Holds] at hh

/-- Over a whole history, queries are answered exactly, and exactly when the
query itself is clear, if and only if every write of the history ends clear. -/
theorem lookup_exact_iff (ops : List Op) (hv : ∀ op ∈ ops, op.Valid) :
    (∀ pre, pre <+: ops → ∀ s m, s + m < W64 →
      (LookupExact pre s m (lookup (run pre) s m) ↔ QueryClear (run pre) s m)) ↔
      ∀ pre op, pre ++ [op] <+: ops → EndsClear (run pre) op := by
  constructor
  · intro hall pre
    -- strong induction: up to the first write that does not end clear the map is ordered
    induction hlen : pre.length using Nat.strong_induction_on generalizing pre with
    | _ k ih =>
      intro op hpre
      have hvp : ∀ x ∈ pre ++ [op], x.Valid := fun x hx => hv x (hpre.subset hx)
      have hcp : ∀ p x, p ++ [x] <+: pre → EndsClear (run p) x := by
        intro p x hp
        have hlt := hp.length_le
        simp only [List.length_append, List.length_singleton] at hlt
        exact ih p.length (by omega) p rfl x (hp.trans ((List.prefix_append ..).trans hpre))
      have hop := hvp op (by simp)
      have hord := run_ordered (fun x hx => hvp x (by simp [hx])) hcp
      by_contra hclear
      apply not_exact_of_not_endsClear (fun x hx => hvp x (by simp [hx])) hord hop hclear
      exact (hall _ hpre _ _ hop.2).mpr (Or.inl hop.1)
  · intro hc pre hpre s m hq
    have hvp : ∀ op ∈ pre, op.Valid := fun op hop => hv op (hpre.subset hop)
    have hcp : ∀ p op, p ++ [op] <+: pre → EndsClear (run p) op := fun p op hp =>
      hc p op (hp.trans hpre)
    constructor
    · intro hex
      by_contra hclear
      exact not_exact_of_not_queryClear hvp hcp hq hclear hex
    · exact lookup_exact hvp hcp hq

/-- Two extents, then a write inside the first: the write is put behind the
tail of the extent it cut. -/
def cutHistory : List Op :=
  [.addWrite 0 10 ⟨"disk.1.log", 0, 0, 40960⟩, .addWrite 20 10 ⟨"disk.1.log", 1, 20, 40960⟩,
    .addWrite 3 2 ⟨"disk.2.log", 0, 3, 8192⟩]

theorem cutHistory_lookup_misses_block :
    (∀ op ∈ cutHistory, op.Valid) ∧ lastRef cutHistory 3 = some ⟨"disk.2.log", 0, 3, 8192⟩ ∧
      lookup (run cutHistory) 0 4 = [⟨0, 3, ⟨"disk.1.log", 0, 0, 40960⟩⟩] ∧
      ¬ LookupExact cutHistory 0 4 (lookup (run cutHistory) 0 4) := by
  have hlook : lookup (run cutHistory) 0 4 = [⟨0, 3, ⟨"disk.1.log", 0, 0, 40960⟩⟩] := by decide
  have hlast : lastRef cutHistory 3 = some ⟨"disk.2.log", 0, 3, 8192⟩ := by decide
  refine ⟨by decide, hlast, hlook, ?_⟩
  intro hex
  have hh := (hex.exact 3 (by omega) (by omega) _).mpr hlast
  simp [hlook, Holds, Run.Covers] at hh

/-- Before that write the same history is answered exactly. -/
theorem lookup_exact_before_cut :
    (∀ op ∈ cutHistory.take 2, op.Valid) ∧
      LookupExact (cutHistory.take 2) 5 20 (lookup (run (cutHistory.take 2)) 5 20) := by
  have hv : ∀ op ∈ cutHistory.take 2, op.Valid := by decide
  have hc : ∀ pre op, pre ++ [op] <+: cutHistory.take 2 → EndsClear (run pre) op := by
    intro pre op h
    match pre with
    | [] =>
      obtain ⟨rfl, -⟩ := List.cons_prefix_cons.mp h
      decide
    | [x] =>
      obtain ⟨rfl, htail⟩ := List.cons_prefix_cons.mp h
      obtain ⟨rfl, -⟩ := List.cons_prefix_cons.mp htail
      decide
    | x :: y :: z =>
      have hlen := h.length_le
      simp [cutHistory] at hlen
  exact ⟨hv, ((lookup_exact_iff _ hv).mpr hc _ List.prefix_rfl 5 20 (by decide)).mpr
    (Or.inl (by decide))⟩

end ExtentMap
end Lbd
