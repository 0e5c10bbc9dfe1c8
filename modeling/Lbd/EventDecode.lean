import Lbd.Act
import Lbd.CborCodecs

/-!
# Events in `lbdctl`

`decode_watch_event` and `decode_miss_event` walk over a map in a buffer with a cursor. The lengths
that texts claim are 64-bit values which are added to the cursor: where the sum does not fit, a
text that is skipped can take the cursor back. Apart from such buffers the cursor moves forward
with every item, so a buffer of `len` bytes is left after at most `len` heads.
-/

namespace Lbd.Cbor
open Act

/-- The cursor, and where it stood at each head that was decoded, the last one first. -/
structure Cursor where
  pos : ℕ
  past : List ℕ

/-- What a decoder does with the value of a key. -/
inductive Kind (σ : Type)
  | skip
  | uint (set : σ → ℕ → σ)
  | text (cap : ℕ) (set : σ → List UInt8 → σ)

section Decode

variable {σ : Type} (read : Buffer → ℕ → Except BufStop ((ℕ × ℕ) × ℕ))
  (fields : ℕ → Option (Kind σ)) (buf : Buffer)

def nextHead : Act Cursor BufStop (ℕ × ℕ) := do
  let c ← get
  let (mv, pos) ← ofExcept (read buf c.pos)
  modify fun _ => ⟨pos, c.pos :: c.past⟩
  pure mv

/-- `pos += slen` -/
def advance (slen : ℕ) : Act Cursor BufStop Unit :=
  modify fun c => { c with pos := (c.pos + slen) % W64 }

/-- The cases of the `switch`. -/
def decodeValue : Kind σ → σ → Act Cursor BufStop σ
  | .skip, s => do
    let (major, slen) ← nextHead read buf
    let c ← get
    if major ≠ 3 ∨ buf.len < (c.pos + slen) % W64 then throw .refused
    else do
      advance slen
      pure s
  | .uint set, s => do
    let (major, val) ← nextHead read buf
    if major ≠ 0 then throw .refused else pure (set s val)
  | .text cap set, s => do
    let (major, slen) ← nextHead read buf
    let c ← get
    if major ≠ 3 ∨ cap ≤ slen ∨ buf.len < (c.pos + slen) % W64 then throw .refused
    else do
      let data ← ofExcept (buf.read c.pos slen)
      advance slen
      pure (set s data)

/-- The loop with `n` pairs left. -/
def decodePairs : ℕ → σ → Act Cursor BufStop σ
  | 0, s => pure s
  | n + 1, s => do
    let (major, key) ← nextHead read buf
    if major ≠ 0 then throw .refused
    else
      match fields key with
      | none => throw .refused
      | some kind => do
        let s ← decodeValue read buf kind s
        decodePairs n s

def decodeEvent (init : σ) : Act Cursor BufStop σ := do
  let (major, mapCount) ← nextHead read buf
  if major ≠ 5 then throw .refused else decodePairs read fields buf mapCount init

end Decode

structure WatchEvent where
  devIndex : ℤ := -1
  label : List UInt8 := []
  dir : List UInt8 := []
  logSeq : ℕ := 0
  deviceSize : ℕ := 0

/-- The keys of `lbd.h`; `(int)val` keeps the low 32 bits. -/
def watchField (labelCap dirCap : ℕ) : ℕ → Option (Kind WatchEvent)
  | 1 => some .skip
  | 2 => some (.uint fun ev val => { ev with devIndex := (BitVec.ofNat 32 val).toInt })
  | 3 => some (.text labelCap fun ev text => { ev with label := text })
  | 4 => some (.text dirCap fun ev text => { ev with dir := text })
  | 5 => some (.uint fun ev val => { ev with logSeq := val })
  | 6 => some (.uint fun ev val => { ev with deviceSize := val })
  | _ => none

def decodeWatchEvent (buf : Buffer) (labelCap dirCap : ℕ) : Except BufStop WatchEvent × Cursor :=
  decodeEvent bufHead (watchField labelCap dirCap) buf {} ⟨0, []⟩

structure MissEvent where
  devIndex : ℤ := -1
  cluster : ℕ := 0

def missField : ℕ → Option (Kind MissEvent)
  | 1 => some .skip
  | 2 => some (.uint fun ev val => { ev with devIndex := (BitVec.ofNat 32 val).toInt })
  | 3 => some (.uint fun ev val => { ev with cluster := val })
  | _ => none

def decodeMissEvent (buf : Buffer) : Except BufStop MissEvent × Cursor :=
  decodeEvent bufHead2 missField buf {} ⟨0, []⟩

/-- A decoder stays inside its buffer, its cursor grows with every item and it decodes no more
heads than the buffer has bytes. -/
structure MovesForward {α : Type} (buf : Buffer) (r : Except BufStop α × Cursor) : Prop where
  inside : r.1 ≠ .error .overrun
  forward : (r.2.pos :: r.2.past).Pairwise (· > ·)
  bounded : ∀ p ∈ r.2.pos :: r.2.past, p ≤ buf.len
  heads : r.2.past.length ≤ buf.len

section Places

variable {σ : Type}

/-- Where a decoder comes to a head: that of the map, of a key with `n` pairs left, and of a value
with `n` pairs left behind it. -/
inductive Place (σ : Type)
  | map
  | key (n : ℕ)
  | value (kind : Kind σ) (n : ℕ)

def IsValue : Kind σ → List UInt8 → Prop
  | .skip, enc => ∃ data, IsText data enc
  | .uint _, enc => ∃ val, IsHead 0 val enc
  | .text cap _, enc => ∃ data, data.length < cap ∧ IsText data enc

/-- The bytes that lead to a place. -/
inductive LeadsTo (fields : ℕ → Option (Kind σ)) : Place σ → List UInt8 → Prop
  | start : LeadsTo fields .map []
  | map {n : ℕ} {hd : List UInt8} (h : IsHead 5 n hd) : LeadsTo fields (.key n) hd
  | key {n key : ℕ} {kind : Kind σ} {pre hd : List UInt8} (hpre : LeadsTo fields (.key (n + 1)) pre)
      (h : IsHead 0 key hd) (hkind : fields key = some kind) :
      LeadsTo fields (.value kind n) (pre ++ hd)
  | value {n : ℕ} {kind : Kind σ} {pre enc : List UInt8} (hpre : LeadsTo fields (.value kind n) pre)
      (h : IsValue kind enc) : LeadsTo fields (.key n) (pre ++ enc)

/-- A text at position `p` that claims to end where no `size_t` reaches. One that is skipped only
counts if it takes the cursor back to its head or before it. -/
def Overlong : Place σ → ℕ → List UInt8 → Prop
  | .value .skip _, p, rest => ∃ slen hd tl, rest = hd ++ tl ∧ IsHead 3 slen hd ∧
      W64 ≤ p + hd.length + slen ∧ hd.length + slen ≤ W64
  | .value (.text cap _) _, p, rest => ∃ slen hd tl, rest = hd ++ tl ∧ IsHead 3 slen hd ∧
      slen < cap ∧ W64 ≤ p + hd.length + slen
  | _, _, _ => False

/-- A sum of the cursor and a size wraps at a place of the buffer that the decoder comes to. -/
def Wraps (fields : ℕ → Option (Kind σ)) (buf : Buffer) : Prop :=
  ∃ place pre rest, LeadsTo fields place pre ∧ buf.bytes = pre ++ rest ∧ place ≠ .key 0 ∧
    (buf.Cut pre.length ∨ Overlong place pre.length rest)

end Places

section Head

variable {buf : Buffer} {c : Cursor} {pre rest hd tl : List UInt8} {major val : ℕ}

theorem nextHead_of_ok {mv : ℕ × ℕ} {pos : ℕ} (h : cborDecHead buf c.pos = .ok (mv, pos)) :
    nextHead cborDecHead buf c = (.ok mv, ⟨pos, c.pos :: c.past⟩) := by
  change (ofExcept (cborDecHead buf c.pos) >>= _ : Act Cursor BufStop (ℕ × ℕ)) c = _
  rw [h]
  rfl

theorem nextHead_of_error {e : BufStop} (h : cborDecHead buf c.pos = .error e) :
    nextHead cborDecHead buf c = (.error e, c) := by
  change (ofExcept (cborDecHead buf c.pos) >>= _ : Act Cursor BufStop (ℕ × ℕ)) c = _
  rw [h]
  rfl

theorem nextHead_of_isHead (h : IsHead major val hd) (hb : buf.bytes = pre ++ (hd ++ tl))
    (hpos : c.pos = pre.length) :
    nextHead cborDecHead buf c = (.ok (major, val), ⟨pre.length + hd.length, c.pos :: c.past⟩) := by
  apply nextHead_of_ok
  have hdrop : buf.bytes.drop c.pos = hd ++ tl := by rw [hpos, hb, List.drop_left]
  have hlen : buf.len = pre.length + hd.length + tl.length := by
    rw [Buffer.len, hb, List.length_append, List.length_append, add_assoc]
  rw [cborDecHead_of_decHead (by rw [hdrop]; exact h.decHead tl), hlen, Nat.add_sub_cancel]

theorem nextHead_cases (hb : buf.bytes = pre ++ rest) (hpos : c.pos = pre.length) :
    (∃ major val hd tl, IsHead major val hd ∧ rest = hd ++ tl ∧ nextHead cborDecHead buf c =
      (.ok (major, val), ⟨pre.length + hd.length, c.pos :: c.past⟩)) ∨
    (buf.Cut pre.length ∧ nextHead cborDecHead buf c = (.error .overrun, c)) ∨
    nextHead cborDecHead buf c = (.error .refused, c) := by
  cases hdec : decHead (buf.bytes.drop c.pos) with
  | none =>
    obtain ⟨hcut, he⟩ | ⟨-, he⟩ := cborDecHead_of_decHead_none hdec
    · exact .inr (.inl ⟨hpos ▸ hcut, nextHead_of_error he⟩)
    · exact .inr (.inr (nextHead_of_error he))
  | some r =>
    obtain ⟨⟨major, val⟩, tl⟩ := r
    obtain ⟨hd, hhd, heq⟩ := decHead_eq_some.mp hdec
    rw [hpos, hb, List.drop_left] at heq
    subst heq
    exact .inl ⟨major, val, hd, tl, hhd, rfl, nextHead_of_isHead hhd hb hpos⟩

theorem nextHead_of_cut (hpos : c.pos = pre.length) (hcut : buf.Cut pre.length) :
    nextHead cborDecHead buf c = (.error .overrun, c) :=
  nextHead_of_error (hpos ▸ cborDecHead_of_cut hcut)

end Head

section Value

variable {σ : Type} {read : Buffer → ℕ → Except BufStop ((ℕ × ℕ) × ℕ)} {buf : Buffer}
  {c c' : Cursor} {major val : ℕ} {s : σ}

theorem decodeValue_of_error {e : BufStop} (h : nextHead read buf c = (.error e, c'))
    (kind : Kind σ) : decodeValue read buf kind s c = (.error e, c') := by
  cases kind <;> exact bind_of_error h

theorem decodeValue_skip (h : nextHead read buf c = (.ok (major, val), c')) :
    decodeValue read buf .skip s c =
      if major ≠ 3 ∨ buf.len < (c'.pos + val) % W64 then (.error .refused, c')
      else (.ok s, ⟨(c'.pos + val) % W64, c'.past⟩) := by
  refine (bind_of_ok h).trans ?_
  change (ite _ _ _ : Act Cursor BufStop σ) c' = _
  split_ifs <;> rfl

theorem decodeValue_uint {set : σ → ℕ → σ} (h : nextHead read buf c = (.ok (major, val), c')) :
    decodeValue read buf (.uint set) s c =
      if major ≠ 0 then (.error .refused, c') else (.ok (set s val), c') := by
  refine (bind_of_ok h).trans ?_
  change (ite _ _ _ : Act Cursor BufStop σ) c' = _
  split_ifs <;> rfl

theorem decodeValue_text {cap : ℕ} {set : σ → List UInt8 → σ}
    (h : nextHead read buf c = (.ok (major, val), c')) :
    decodeValue read buf (.text cap set) s c =
      if major ≠ 3 ∨ cap ≤ val ∨ buf.len < (c'.pos + val) % W64 then (.error .refused, c')
      else match buf.read c'.pos val with
        | .ok data => (.ok (set s data), ⟨(c'.pos + val) % W64, c'.past⟩)
        | .error e => (.error e, c') := by
  refine (bind_of_ok h).trans ?_
  change (ite _ _ _ : Act Cursor BufStop σ) c' = _
  split_ifs
  · rfl
  · cases buf.read c'.pos val <;> rfl

theorem decodePairs_of_error {fields : ℕ → Option (Kind σ)} {n : ℕ} {e : BufStop}
    (h : nextHead read buf c = (.error e, c')) :
    decodePairs read fields buf (n + 1) s c = (.error e, c') := bind_of_error h

theorem decodePairs_of_key {fields : ℕ → Option (Kind σ)} {n : ℕ}
    (h : nextHead read buf c = (.ok (major, val), c')) :
    decodePairs read fields buf (n + 1) s c =
      if major ≠ 0 then (.error .refused, c')
      else match fields val with
        | none => (.error .refused, c')
        | some kind => (decodeValue read buf kind s >>= decodePairs read fields buf n) c' := by
  refine (bind_of_ok h).trans ?_
  change (ite _ _ _ : Act Cursor BufStop σ) c' = _
  split_ifs
  · rfl
  · cases fields val <;> rfl

end Value

section Back

variable {σ : Type} {fields : ℕ → Option (Kind σ)} {buf : Buffer} {pre rest : List UInt8}
  {c : Cursor} {s : σ}

/-- The rest of a decoder from a place on. -/
def continueAt (fields : ℕ → Option (Kind σ)) (buf : Buffer) : Place σ → σ → Act Cursor BufStop σ
  | .map, s => decodeEvent cborDecHead fields buf s
  | .key n, s => decodePairs cborDecHead fields buf n s
  | .value kind n, s => do
    let s ← decodeValue cborDecHead buf kind s
    decodePairs cborDecHead fields buf n s

theorem text_end {hd data : List UInt8} (hb : buf.bytes = pre ++ (hd ++ (data ++ rest))) :
    (pre.length + hd.length + data.length) % W64 = (pre ++ (hd ++ data)).length ∧
      pre.length + hd.length + data.length ≤ buf.len := by
  have hfits : buf.len < W64 := buf.fits
  have hlen : buf.len = pre.length + (hd.length + (data.length + rest.length)) := by
    rw [Buffer.len, hb, List.length_append, List.length_append, List.length_append]
  refine ⟨?_, by omega⟩
  rw [Nat.mod_eq_of_lt (by omega), List.length_append, List.length_append, add_assoc]

theorem decodeValue_of_isValue {kind : Kind σ} {enc : List UInt8} (h : IsValue kind enc)
    (hb : buf.bytes = pre ++ (enc ++ rest)) (hpos : c.pos = pre.length) :
    ∃ s' past, decodeValue cborDecHead buf kind s c = (.ok s', ⟨(pre ++ enc).length, past⟩) := by
  cases kind with
  | skip =>
    obtain ⟨data, hd, hhd, rfl⟩ := h
    rw [List.append_assoc] at hb
    obtain ⟨hsum, hle⟩ := text_end hb
    rw [decodeValue_skip (nextHead_of_isHead hhd hb hpos), hsum, List.length_append,
      List.length_append, if_neg (by omega)]
    exact ⟨s, _, rfl⟩
  | uint set =>
    obtain ⟨val, hhd⟩ := h
    rw [decodeValue_uint (nextHead_of_isHead hhd hb hpos), if_neg (by simp), List.length_append]
    exact ⟨_, _, rfl⟩
  | text cap set =>
    obtain ⟨data, hcap, hd, hhd, rfl⟩ := h
    rw [List.append_assoc] at hb
    obtain ⟨hsum, hle⟩ := text_end hb
    rw [decodeValue_text (nextHead_of_isHead hhd hb hpos), hsum, List.length_append,
      List.length_append, if_neg (by omega), Buffer.read, if_pos hle]
    exact ⟨_, _, rfl⟩

theorem LeadsTo.exists_continueAt {place : Place σ} (h : LeadsTo fields place pre)
    (hb : buf.bytes = pre ++ rest) (init : σ) :
    ∃ s c, c.pos = pre.length ∧
      decodeEvent cborDecHead fields buf init ⟨0, []⟩ = continueAt fields buf place s c := by
  induction h generalizing rest with
  | start => exact ⟨init, ⟨0, []⟩, rfl, rfl⟩
  | @map n hd h =>
    have hstep : nextHead cborDecHead buf ⟨0, []⟩ = (.ok (5, n), ⟨hd.length, [0]⟩) := by
      rw [nextHead_of_isHead h (show buf.bytes = [] ++ (hd ++ rest) from hb) rfl,
        List.length_nil, Nat.zero_add]
    exact ⟨init, ⟨hd.length, [0]⟩, rfl, bind_of_ok hstep⟩
  | @key n key kind pre hd _ h hkind ih =>
    rw [List.append_assoc] at hb
    obtain ⟨s, c, hpos, heq⟩ := ih hb
    refine ⟨s, ⟨pre.length + hd.length, c.pos :: c.past⟩, List.length_append.symm, ?_⟩
    refine heq.trans ((decodePairs_of_key (nextHead_of_isHead h hb hpos)).trans ?_)
    rw [if_neg (by simp), hkind]
    rfl
  | @value n kind pre enc _ h ih =>
    rw [List.append_assoc] at hb
    obtain ⟨s, c, hpos, heq⟩ := ih hb
    obtain ⟨s', past, hval⟩ := decodeValue_of_isValue h hb hpos
    exact ⟨s', ⟨(pre ++ enc).length, past⟩, rfl, heq.trans (bind_of_ok hval)⟩

/-- What a decoder has passed stays on record. -/
def Cursor.Extends (c c' : Cursor) : Prop := c' = c ∨ c.pos :: c.past <:+ c'.past

theorem Cursor.Extends.trans {c c' c'' : Cursor} (h : c.Extends c') (h' : c'.Extends c'') :
    c.Extends c'' := by
  obtain rfl | h := h
  · exact h'
  · obtain rfl | h' := h'
    · exact .inr h
    · exact .inr (h.trans ((List.suffix_cons _ _).trans h'))

theorem nextHead_extends (buf : Buffer) (c : Cursor) :
    (∃ e, nextHead cborDecHead buf c = (.error e, c)) ∨
      ∃ mv c', nextHead cborDecHead buf c = (.ok mv, c') ∧ c'.past = c.pos :: c.past := by
  cases h : cborDecHead buf c.pos with
  | error e => exact .inl ⟨e, nextHead_of_error h⟩
  | ok r => exact .inr ⟨r.1, _, nextHead_of_ok h, rfl⟩

theorem decodeValue_extends (kind : Kind σ) (s : σ) (c : Cursor) :
    c.Extends (decodeValue cborDecHead buf kind s c).2 := by
  obtain ⟨e, he⟩ | ⟨⟨major, val⟩, c', hok, hpast⟩ := nextHead_extends buf c
  · rw [decodeValue_of_error he]
    exact .inl rfl
  · right
    rw [← hpast]
    cases kind with
    | skip =>
      rw [decodeValue_skip hok]
      split_ifs <;> exact List.suffix_rfl
    | uint set =>
      rw [decodeValue_uint hok]
      split_ifs <;> exact List.suffix_rfl
    | text cap set =>
      rw [decodeValue_text hok]
      split_ifs
      · exact List.suffix_rfl
      · split <;> exact List.suffix_rfl

theorem decodePairs_extends (n : ℕ) (s : σ) (c : Cursor) :
    c.Extends (decodePairs cborDecHead fields buf n s c).2 := by
  induction n generalizing s c with
  | zero => exact .inl rfl
  | succ n ih =>
    obtain ⟨e, he⟩ | ⟨⟨major, key⟩, c', hok, hpast⟩ := nextHead_extends buf c
    · rw [decodePairs_of_error he]
      exact .inl rfl
    · have hc' : c.Extends c' := .inr (by rw [hpast])
      apply hc'.trans
      rw [decodePairs_of_key hok]
      split_ifs
      · exact .inl rfl
      · cases fields key with
        | none => exact .inl rfl
        | some kind =>
          have hval : c'.Extends (decodeValue cborDecHead buf kind s c').2 :=
            decodeValue_extends kind s c'
          dsimp only
          cases hr : decodeValue cborDecHead buf kind s c' with
          | mk r c'' =>
            rw [hr] at hval
            cases r with
            | error e =>
              rw [bind_of_error hr]
              exact hval
            | ok s' =>
              rw [bind_of_ok hr]
              exact hval.trans (ih s' c'')

theorem not_forward_of_extends {w p : ℕ} {past : List ℕ} {c : Cursor} (hle : w ≤ p)
    (h : Cursor.Extends ⟨w, p :: past⟩ c) : ¬ (c.pos :: c.past).Pairwise (· > ·) := by
  intro hp
  have hsub : (w :: p :: past).Pairwise (· > ·) := by
    obtain rfl | h := h
    · exact hp
    · exact (List.pairwise_cons.mp hp).2.sublist h.sublist
  have := (List.pairwise_cons.mp hsub).1 p (by simp)
  omega

theorem continueAt_of_cut {place : Place σ} (hplace : place ≠ .key 0) (hpos : c.pos = pre.length)
    (hcut : buf.Cut pre.length) : (continueAt fields buf place s c).1 = .error .overrun := by
  have hhead := nextHead_of_cut hpos hcut
  cases place with
  | map => exact congrArg Prod.fst (bind_of_error hhead)
  | key n =>
    cases n with
    | zero => exact absurd rfl hplace
    | succ n => exact congrArg Prod.fst (decodePairs_of_error hhead)
  | value kind n =>
    exact congrArg Prod.fst (bind_of_error (decodeValue_of_error hhead kind))

theorem IsHead.val_lt {major val : ℕ} {hd : List UInt8} (h : IsHead major val hd) : val < W64 := by
  have hw : W64 = 2 ^ 64 := rfl
  obtain ⟨-, ⟨hval, -⟩ | ⟨ai, arg, hk, rfl, -⟩⟩ := h
  · omega
  · have hlt := beNat_lt arg
    simp only [widths, List.mem_cons, Prod.mk.injEq, List.not_mem_nil, or_false] at hk
    rcases hk with ⟨-, hk⟩ | ⟨-, hk⟩ | ⟨-, hk⟩ | ⟨-, hk⟩ <;> rw [hk] at hlt <;> omega

/-- An overlong text that is skipped takes the cursor back, one that is copied is read behind the
end of the buffer. -/
theorem continueAt_of_overlong {place : Place σ} (hb : buf.bytes = pre ++ rest)
    (hpos : c.pos = pre.length) (h : Overlong place pre.length rest) :
    ¬ MovesForward buf (continueAt fields buf place s c) := by
  intro hmoves
  have hfits : buf.len < W64 := buf.fits
  match place, h with
  | .value .skip n, ⟨slen, hd, tl, hrest, hhd, hwrap, hle⟩ =>
    subst hrest
    have hval := hhd.val_lt
    have hlen : buf.len = pre.length + (hd.length + tl.length) := by
      rw [Buffer.len, hb, List.length_append, List.length_append]
    have hsum : (pre.length + hd.length + slen) % W64 = pre.length + hd.length + slen - W64 := by
      rw [Nat.mod_eq_sub_mod hwrap, Nat.mod_eq_of_lt (by omega)]
    have hskip := decodeValue_skip (s := s) (nextHead_of_isHead hhd hb hpos)
    rw [hsum, if_neg (by omega)] at hskip
    have hback : pre.length + hd.length + slen - W64 ≤ c.pos := by omega
    have hext : Cursor.Extends ⟨pre.length + hd.length + slen - W64, c.pos :: c.past⟩
        (continueAt fields buf (.value .skip n) s c).2 := by
      rw [continueAt, bind_of_ok hskip]
      exact decodePairs_extends n s _
    exact not_forward_of_extends hback hext hmoves.forward
  | .value (.text cap set) n, ⟨slen, hd, tl, hrest, hhd, hcap, hwrap⟩ =>
    subst hrest
    have hval := hhd.val_lt
    have hlen : buf.len = pre.length + (hd.length + tl.length) := by
      rw [Buffer.len, hb, List.length_append, List.length_append]
    have hsum : (pre.length + hd.length + slen) % W64 = pre.length + hd.length + slen - W64 := by
      rw [Nat.mod_eq_sub_mod hwrap, Nat.mod_eq_of_lt (by omega)]
    have htext : decodeValue cborDecHead buf (.text cap set) s c = _ :=
      decodeValue_text (nextHead_of_isHead hhd hb hpos)
    dsimp only at htext
    rw [hsum, if_neg (by omega), Buffer.read, if_neg (by omega)] at htext
    apply hmoves.inside
    rw [continueAt, bind_of_error htext]

theorem not_movesForward_of_wraps (h : Wraps fields buf) (init : σ) :
    ¬ MovesForward buf (decodeEvent cborDecHead fields buf init ⟨0, []⟩) := by
  obtain ⟨place, pre, rest, hlead, hb, hplace, hwrap⟩ := h
  obtain ⟨s, c, hpos, heq⟩ := hlead.exists_continueAt hb init
  rw [heq]
  obtain hcut | hlong := hwrap
  · exact fun hmoves => hmoves.inside (continueAt_of_cut hplace hpos hcut)
  · exact continueAt_of_overlong hb hpos hlong

end Back

/-- What `MovesForward` asks of the cursor. -/
structure Cursor.Forward (buf : Buffer) (c : Cursor) : Prop where
  sorted : (c.pos :: c.past).Pairwise (· > ·)
  le : c.pos ≤ buf.len

theorem length_le_of_pairwise {p : ℕ} {past : List ℕ} (h : (p :: past).Pairwise (· > ·)) :
    past.length ≤ p := by
  induction past generalizing p with
  | nil => exact Nat.zero_le p
  | cons q past ih =>
    obtain ⟨hp, hq⟩ := List.pairwise_cons.mp h
    have := hp q (by simp)
    have := ih hq
    rw [List.length_cons]
    omega

section Forward

variable {σ : Type} {fields : ℕ → Option (Kind σ)} {buf : Buffer} {pre rest : List UInt8}
  {c : Cursor} {s : σ}

theorem Cursor.Forward.step (h : c.Forward buf) {pos : ℕ} (hlt : c.pos < pos)
    (hle : pos ≤ buf.len) : Cursor.Forward buf ⟨pos, c.pos :: c.past⟩ := by
  refine ⟨List.pairwise_cons.mpr ⟨?_, h.sorted⟩, hle⟩
  intro q hq
  obtain rfl | hq := List.mem_cons.mp hq
  · exact hlt
  · exact ((List.pairwise_cons.mp h.sorted).1 q hq).trans hlt

theorem Cursor.Forward.movesForward {α : Type} {r : Except BufStop α × Cursor}
    (h : r.2.Forward buf) (hr : r.1 ≠ .error .overrun) : MovesForward buf r := by
  refine ⟨hr, h.sorted, ?_, (length_le_of_pairwise h.sorted).trans h.le⟩
  intro p hp
  obtain rfl | hp := List.mem_cons.mp hp
  · exact h.le
  · exact ((List.pairwise_cons.mp h.sorted).1 p hp).le.trans h.le

theorem Cursor.Forward.ok {α : Type} (h : c.Forward buf) (a : α) : MovesForward buf (.ok a, c) :=
  h.movesForward nofun

theorem Cursor.Forward.refused {α : Type} (h : c.Forward buf) :
    MovesForward buf ((.error .refused : Except BufStop α), c) := h.movesForward nofun

theorem eq_max_of_beNat {bs : List UInt8} (h : beNat bs + 1 = 256 ^ bs.length) :
    ∀ b ∈ bs, b = 255 := by
  induction bs using List.reverseRecOn with
  | nil => simp
  | append_singleton bs b ih =>
    have hb := b.toNat_lt
    have hbs := beNat_lt bs
    rw [beNat_concat, List.length_append, List.length_singleton, pow_succ] at h
    intro b' hb'
    obtain hb' | hb' := List.mem_append.mp hb'
    · exact ih (by omega) b' hb'
    · rw [List.mem_singleton.mp hb']
      apply UInt8.toNat_inj.mp
      change b.toNat = 255
      omega

/-- A length so close to `2 ^ 64` that the cursor stays behind the initial byte of the text: it
then stands on a byte `0xFF`. -/
theorem IsHead.getElem?_of_wrap {major val : ℕ} {hd : List UInt8} (h : IsHead major val hd)
    (hwrap : W64 < hd.length + val) : hd[hd.length + val - W64]? = some 255 := by
  have hw : W64 = 2 ^ 64 := rfl
  have hval := h.val_lt
  obtain ⟨-, ⟨hlt, rfl⟩ | ⟨ai, arg, hk, rfl, rfl⟩⟩ := h
  · rw [List.length_singleton] at hwrap
    omega
  · have hlt := beNat_lt arg
    rw [List.length_cons] at hwrap ⊢
    have hk8 : arg.length = 8 := by
      simp only [widths, List.mem_cons, Prod.mk.injEq, List.not_mem_nil, or_false] at hk
      rcases hk with ⟨-, hk⟩ | ⟨-, hk⟩ | ⟨-, hk⟩ | ⟨-, hk⟩
      · rw [hk] at hlt hwrap
        omega
      · rw [hk] at hlt hwrap
        omega
      · rw [hk] at hlt hwrap
        omega
      · exact hk
    obtain ⟨bs, b, rfl⟩ : ∃ bs b, arg = bs ++ [b] :=
      ⟨arg.dropLast, arg.getLast (by rintro rfl; cases hk8), (List.dropLast_append_getLast _).symm⟩
    rw [List.length_append, List.length_singleton] at hk8
    have hbs := beNat_lt bs
    have hb := b.toNat_lt
    have h7 : bs.length = 7 := by omega
    rw [beNat_concat] at hwrap hval ⊢
    rw [List.length_append, List.length_singleton] at hwrap ⊢
    rw [h7] at hbs hwrap ⊢
    have hmax : ∀ b ∈ bs, b = 255 := eq_max_of_beNat (by rw [h7]; omega)
    obtain ⟨i, hi⟩ : ∃ i, 7 + 1 + 1 + (256 * beNat bs + b.toNat) - W64 = i + 1 :=
      ⟨7 + 1 + (256 * beNat bs + b.toNat) - W64, by omega⟩
    rw [hi, List.getElem?_cons_succ]
    by_cases hlast : i < 7
    · rw [List.getElem?_append_left (by omega), List.getElem?_eq_getElem (by omega)]
      exact congrArg some (hmax _ (List.getElem_mem _))
    · have h255 : b = 255 := by
        apply UInt8.toNat_inj.mp
        change b.toNat = 255
        omega
      rw [show i = bs.length by omega, List.getElem?_concat_length, h255]

theorem decodePairs_of_ff (h : buf.bytes[c.pos]? = some 255) (n : ℕ) (hc : c.Forward buf) :
    MovesForward buf (decodePairs cborDecHead fields buf n s c) := by
  cases n with
  | zero => exact hc.ok s
  | succ n =>
    obtain ⟨hlt, hget⟩ := List.getElem?_eq_some_iff.mp h
    have hdrop : buf.bytes.drop c.pos = 255 :: buf.bytes.drop (c.pos + 1) := by
      rw [← hget, List.drop_eq_getElem_cons hlt]
    have hdec : cborDecHead buf c.pos = .error .refused := by
      rw [cborDecHead_of_cons hdrop]
      rfl
    rw [decodePairs_of_error (nextHead_of_error hdec)]
    exact hc.refused

theorem exists_text {hd tl : List UInt8} {slen : ℕ} (hb : buf.bytes = pre ++ (hd ++ tl))
    (hhd : IsHead 3 slen hd) (hle : pre.length + hd.length + slen ≤ buf.len) :
    ∃ data rest, data.length = slen ∧ IsText data (hd ++ data) ∧
      buf.bytes = pre ++ (hd ++ data) ++ rest := by
  have hlen : buf.len = pre.length + (hd.length + tl.length) := by
    rw [Buffer.len, hb, List.length_append, List.length_append]
  have htake : (tl.take slen).length = slen := by
    rw [List.length_take]
    omega
  refine ⟨tl.take slen, tl.drop slen, htake, ⟨hd, by rwa [htake], rfl⟩, ?_⟩
  rw [hb, List.append_assoc, List.append_assoc, List.take_append_drop]

section Value

variable {n : ℕ}

/-- What the loop does behind the bytes that lead to its next key. -/
def PairsForward (fields : ℕ → Option (Kind σ)) (buf : Buffer) (n : ℕ) : Prop :=
  ∀ pre rest s c, LeadsTo fields (.key n) pre → buf.bytes = pre ++ rest → c.pos = pre.length →
    c.Forward buf → MovesForward buf (decodePairs cborDecHead fields buf n s c)

variable {hd tl : List UInt8} {major val : ℕ}

theorem movesForward_skip (ih : PairsForward fields buf n)
    (hlead : LeadsTo fields (.value .skip n) pre) (hb : buf.bytes = pre ++ (hd ++ tl))
    (hhd : IsHead major val hd) (hpos : c.pos = pre.length) (hc : c.Forward buf)
    (hnot : ¬ Overlong (Place.value (Kind.skip : Kind σ) n) pre.length (hd ++ tl)) :
    MovesForward buf ((decodeValue cborDecHead buf .skip s >>=
      decodePairs cborDecHead fields buf n) c) := by
  have hfits : buf.len < W64 := buf.fits
  have hval := hhd.val_lt
  have hlen : buf.len = pre.length + (hd.length + tl.length) := by
    rw [Buffer.len, hb, List.length_append, List.length_append]
  have hhdpos := List.length_pos_of_ne_nil hhd.ne_nil
  have hskip := decodeValue_skip (s := s) (nextHead_of_isHead hhd hb hpos)
  dsimp only at hskip
  by_cases hrefused : major ≠ 3 ∨ buf.len < (pre.length + hd.length + val) % W64
  · rw [if_pos hrefused] at hskip
    rw [bind_of_error hskip]
    exact (hc.step (by omega) (by omega)).refused
  · rw [if_neg hrefused] at hskip
    rw [bind_of_ok hskip]
    rw [not_or, not_not, not_lt] at hrefused
    clear hskip
    obtain ⟨rfl, hle⟩ := hrefused
    by_cases hwrap : W64 ≤ pre.length + hd.length + val
    · -- the cursor stays in front of the text, but behind its initial byte
      have hover : W64 < hd.length + val := by
        by_contra hle'
        exact hnot ⟨val, hd, tl, rfl, hhd, hwrap, by omega⟩
      have hsum : (pre.length + hd.length + val) % W64 =
          pre.length + (hd.length + val - W64) := by
        rw [Nat.mod_eq_sub_mod hwrap, Nat.mod_eq_of_lt (by omega)]
        omega
      rw [hsum] at hle ⊢
      have hff : buf.bytes[pre.length + (hd.length + val - W64)]? = some 255 := by
        rw [hb, List.getElem?_append_right (by omega), Nat.add_sub_cancel_left,
          List.getElem?_append_left (by omega)]
        exact hhd.getElem?_of_wrap hover
      have hlt : c.pos < pre.length + (hd.length + val - W64) := by omega
      exact decodePairs_of_ff (c := ⟨_, c.pos :: c.past⟩) hff n (hc.step hlt hle)
    · rw [Nat.mod_eq_of_lt (by omega)] at hle ⊢
      obtain ⟨data, rest, rfl, htext, hrest⟩ := exists_text hb hhd hle
      refine ih _ rest s _ (hlead.value ⟨data, htext⟩) hrest ?_ (hc.step (by omega) hle)
      rw [List.length_append, List.length_append, add_assoc]

theorem movesForward_text {cap : ℕ} {set : σ → List UInt8 → σ} (ih : PairsForward fields buf n)
    (hlead : LeadsTo fields (.value (.text cap set) n) pre) (hb : buf.bytes = pre ++ (hd ++ tl))
    (hhd : IsHead major val hd) (hpos : c.pos = pre.length) (hc : c.Forward buf)
    (hnot : ¬ Overlong (Place.value (Kind.text cap set) n) pre.length (hd ++ tl)) :
    MovesForward buf ((decodeValue cborDecHead buf (.text cap set) s >>=
      decodePairs cborDecHead fields buf n) c) := by
  have hlen : buf.len = pre.length + (hd.length + tl.length) := by
    rw [Buffer.len, hb, List.length_append, List.length_append]
  have hhdpos := List.length_pos_of_ne_nil hhd.ne_nil
  have hcopy : decodeValue cborDecHead buf (.text cap set) s c = _ :=
    decodeValue_text (nextHead_of_isHead hhd hb hpos)
  dsimp only at hcopy
  by_cases hrefused : major ≠ 3 ∨ cap ≤ val ∨ buf.len < (pre.length + hd.length + val) % W64
  · rw [if_pos hrefused] at hcopy
    rw [bind_of_error hcopy]
    exact (hc.step (by omega) (by omega)).refused
  · rw [if_neg hrefused] at hcopy
    rw [not_or, not_or, not_not, not_le, not_lt] at hrefused
    obtain ⟨rfl, hcap, hle⟩ := hrefused
    have hwrap : pre.length + hd.length + val < W64 := by
      by_contra hge
      exact hnot ⟨val, hd, tl, rfl, hhd, hcap, by omega⟩
    rw [Nat.mod_eq_of_lt hwrap] at hcopy hle
    rw [Buffer.read, if_pos hle] at hcopy
    rw [bind_of_ok hcopy]
    obtain ⟨data, rest, rfl, htext, hrest⟩ := exists_text hb hhd hle
    refine ih _ rest _ _ (hlead.value ⟨data, hcap, htext⟩) hrest ?_ (hc.step (by omega) hle)
    rw [List.length_append, List.length_append, add_assoc]

theorem movesForward_uint {set : σ → ℕ → σ} (ih : PairsForward fields buf n)
    (hlead : LeadsTo fields (.value (.uint set) n) pre) (hb : buf.bytes = pre ++ (hd ++ tl))
    (hhd : IsHead major val hd) (hpos : c.pos = pre.length) (hc : c.Forward buf) :
    MovesForward buf ((decodeValue cborDecHead buf (.uint set) s >>=
      decodePairs cborDecHead fields buf n) c) := by
  have hlen : buf.len = pre.length + (hd.length + tl.length) := by
    rw [Buffer.len, hb, List.length_append, List.length_append]
  have hhdpos := List.length_pos_of_ne_nil hhd.ne_nil
  have hc' := hc.step (show c.pos < pre.length + hd.length by omega) (by omega)
  have hint : decodeValue cborDecHead buf (.uint set) s c = _ :=
    decodeValue_uint (nextHead_of_isHead hhd hb hpos)
  by_cases hmajor : major ≠ 0
  · rw [if_pos hmajor] at hint
    rw [bind_of_error hint]
    exact hc'.refused
  · rw [if_neg hmajor] at hint
    rw [bind_of_ok hint]
    rw [not_not] at hmajor
    subst hmajor
    exact ih _ tl _ _ (hlead.value ⟨val, hhd⟩) (by rw [hb, List.append_assoc])
      List.length_append.symm hc'

theorem movesForward_value {kind : Kind σ} (hw : ¬ Wraps fields buf)
    (ih : PairsForward fields buf n)
    (hlead : LeadsTo fields (.value kind n) pre) (hb : buf.bytes = pre ++ rest)
    (hpos : c.pos = pre.length) (hc : c.Forward buf) :
    MovesForward buf ((decodeValue cborDecHead buf kind s >>=
      decodePairs cborDecHead fields buf n) c) := by
  have hnot : ¬ (buf.Cut pre.length ∨ Overlong (.value kind n) pre.length rest) :=
    fun h => hw ⟨_, pre, rest, hlead, hb, by simp, h⟩
  rw [not_or] at hnot
  obtain ⟨major, val, hd, tl, hhd, rfl, -⟩ | ⟨hcut, -⟩ | he := nextHead_cases hb hpos
  · cases kind with
    | skip => exact movesForward_skip ih hlead hb hhd hpos hc hnot.2
    | uint set => exact movesForward_uint ih hlead hb hhd hpos hc
    | text cap set => exact movesForward_text ih hlead hb hhd hpos hc hnot.2
  · exact absurd hcut hnot.1
  · rw [bind_of_error (decodeValue_of_error he kind)]
    exact hc.refused

end Value

theorem pairsForward (hw : ¬ Wraps fields buf) (n : ℕ) : PairsForward fields buf n := by
  induction n with
  | zero => exact fun _ _ s _ _ _ _ hc => hc.ok s
  | succ n ih =>
    intro pre rest s c hlead hb hpos hc
    have hcut : ¬ buf.Cut pre.length :=
      fun h => hw ⟨_, pre, rest, hlead, hb, by simp, .inl h⟩
    obtain ⟨major, key, hd, tl, hhd, rfl, hok⟩ | ⟨h, -⟩ | he := nextHead_cases hb hpos
    · have hlen : buf.len = pre.length + (hd.length + tl.length) := by
        rw [Buffer.len, hb, List.length_append, List.length_append]
      have hhdpos := List.length_pos_of_ne_nil hhd.ne_nil
      have hc' := hc.step (show c.pos < pre.length + hd.length by omega) (by omega)
      rw [decodePairs_of_key hok]
      by_cases hmajor : major ≠ 0
      · rw [if_pos hmajor]
        exact hc'.refused
      · rw [if_neg hmajor]
        rw [not_not] at hmajor
        subst hmajor
        cases hkind : fields key with
        | none => exact hc'.refused
        | some kind =>
          exact movesForward_value hw ih (hlead.key hhd hkind) (by rw [hb, List.append_assoc])
            List.length_append.symm hc'
    · exact absurd h hcut
    · rw [decodePairs_of_error he]
      exact hc.refused

theorem movesForward_of_not_wraps (hw : ¬ Wraps fields buf) (init : σ) :
    MovesForward buf (decodeEvent cborDecHead fields buf init ⟨0, []⟩) := by
  have hc : Cursor.Forward buf ⟨0, []⟩ := ⟨List.pairwise_singleton _ _, Nat.zero_le _⟩
  have hb : buf.bytes = [] ++ buf.bytes := rfl
  have hpos : (⟨0, []⟩ : Cursor).pos = ([] : List UInt8).length := rfl
  obtain ⟨major, n, hd, tl, hhd, htl, hok⟩ | ⟨h, -⟩ | he := nextHead_cases hb hpos
  · have hlen : buf.len = hd.length + tl.length := by
      rw [Buffer.len, htl, List.length_append]
    have hhdpos := List.length_pos_of_ne_nil hhd.ne_nil
    rw [List.length_nil, Nat.zero_add] at hok
    have hc' := hc.step hhdpos (by omega)
    have hrun : decodeEvent cborDecHead fields buf init ⟨0, []⟩ = _ := bind_of_ok hok
    rw [hrun]
    by_cases hmajor : major ≠ 5
    · dsimp only
      rw [if_pos hmajor]
      exact hc'.refused
    · dsimp only
      rw [if_neg hmajor]
      rw [not_not] at hmajor
      subst hmajor
      exact pairsForward hw n hd tl init _ (.map hhd) htl rfl hc'
  · exact absurd ⟨.map, [], buf.bytes, .start, hb, by simp, .inl h⟩ hw
  · have hrun : decodeEvent cborDecHead fields buf init ⟨0, []⟩ = _ := bind_of_error he
    rw [hrun]
    exact hc.refused

theorem movesForward_decodeEvent (init : σ) :
    MovesForward buf (decodeEvent cborDecHead fields buf init ⟨0, []⟩) ↔ ¬ Wraps fields buf :=
  ⟨fun h hw => not_movesForward_of_wraps hw init h, fun hw => movesForward_of_not_wraps hw init⟩

end Forward

/-- Both decoders move forward exactly through the buffers in which no sum wraps. -/
theorem decodeEvents_forward_iff (buf : Buffer) (labelCap dirCap : ℕ) :
    (MovesForward buf (decodeWatchEvent buf labelCap dirCap) ↔
      ¬ Wraps (watchField labelCap dirCap) buf) ∧
    (MovesForward buf (decodeMissEvent buf) ↔ ¬ Wraps missField buf) := by
  rw [decodeWatchEvent, bufHead_eq, decodeMissEvent, bufHead2_eq]
  exact ⟨movesForward_decodeEvent _, movesForward_decodeEvent _⟩

/-- A map of `2 ^ 64 - 1` pairs, and in it a type text of `2 ^ 64 - 10` bytes. -/
def loopBuffer : Buffer where
  bytes := [0xBB, 0xFF, 0xFF, 0xFF, 0xFF, 0xFF, 0xFF, 0xFF, 0xFF, 0x01,
    0x7B, 0xFF, 0xFF, 0xFF, 0xFF, 0xFF, 0xFF, 0xFF, 0xF6]
  fits := by norm_num

section Loop

variable {σ : Type} {fields : ℕ → Option (Kind σ)}

theorem loopBuffer_map : cborDecHead loopBuffer 0 = .ok ((5, 2 ^ 64 - 1), 9) := rfl

theorem loopBuffer_key : cborDecHead loopBuffer 9 = .ok ((0, 1), 10) := rfl

theorem loopBuffer_text : cborDecHead loopBuffer 10 = .ok ((3, 2 ^ 64 - 10), 19) := rfl

theorem decodePairs_loopBuffer (h : fields 1 = some .skip) (n : ℕ) (s : σ) (past : List ℕ) :
    ∃ past', decodePairs cborDecHead fields loopBuffer n s ⟨9, past⟩ = (.ok s, ⟨9, past'⟩) ∧
      past'.length = past.length + 2 * n := by
  induction n generalizing past with
  | zero => exact ⟨past, rfl, rfl⟩
  | succ n ih =>
    have hkey : nextHead cborDecHead loopBuffer ⟨9, past⟩ = (.ok (0, 1), ⟨10, 9 :: past⟩) :=
      nextHead_of_ok loopBuffer_key
    have htext : nextHead cborDecHead loopBuffer ⟨10, 9 :: past⟩ =
        (.ok (3, 2 ^ 64 - 10), ⟨19, 10 :: 9 :: past⟩) := nextHead_of_ok loopBuffer_text
    have hskip : decodeValue cborDecHead loopBuffer .skip s ⟨10, 9 :: past⟩ =
        (.ok s, ⟨9, 10 :: 9 :: past⟩) := by
      rw [decodeValue_skip htext]
      norm_num [loopBuffer, Buffer.len]
    obtain ⟨past', heq, hlen⟩ := ih (10 :: 9 :: past)
    refine ⟨past', ?_, ?_⟩
    · rw [decodePairs_of_key hkey, if_neg (by simp), h]
      dsimp only
      rw [bind_of_ok hskip, heq]
    · rw [hlen, List.length_cons, List.length_cons]
      omega

theorem decodeEvent_of_map {buf : Buffer} {n : ℕ} {c c' : Cursor} {init : σ}
    (h : nextHead cborDecHead buf c = (.ok (5, n), c')) :
    decodeEvent cborDecHead fields buf init c = decodePairs cborDecHead fields buf n init c' :=
  bind_of_ok h

theorem heads_loopBuffer (h : fields 1 = some .skip) (init : σ) :
    (decodeEvent cborDecHead fields loopBuffer init ⟨0, []⟩).2.past.length = 2 ^ 65 - 1 := by
  have hmap : nextHead cborDecHead loopBuffer ⟨0, []⟩ = (.ok (5, 2 ^ 64 - 1), ⟨9, [0]⟩) :=
    nextHead_of_ok loopBuffer_map
  obtain ⟨past, heq, hlen⟩ := decodePairs_loopBuffer h (2 ^ 64 - 1) init [0]
  rw [decodeEvent_of_map hmap, heq, hlen]
  norm_num

end Loop

/-- Nineteen bytes that take more than `2 ^ 64` heads. -/
theorem loopBuffer_heads :
    loopBuffer.len = 19 ∧ (decodeWatchEvent loopBuffer 32 256).2.past.length = 2 ^ 65 - 1 ∧
      (decodeMissEvent loopBuffer).2.past.length = 2 ^ 65 - 1 ∧
      ¬ MovesForward loopBuffer (decodeWatchEvent loopBuffer 32 256) ∧
      ¬ MovesForward loopBuffer (decodeMissEvent loopBuffer) := by
  have hlen : loopBuffer.len = 19 := rfl
  have hwatch : (decodeWatchEvent loopBuffer 32 256).2.past.length = 2 ^ 65 - 1 := by
    have hskip : watchField 32 256 1 = some .skip := rfl
    rw [decodeWatchEvent, bufHead_eq, heads_loopBuffer hskip]
  have hmiss : (decodeMissEvent loopBuffer).2.past.length = 2 ^ 65 - 1 := by
    have hskip : missField 1 = some .skip := rfl
    rw [decodeMissEvent, bufHead2_eq, heads_loopBuffer hskip]
  refine ⟨hlen, hwatch, hmiss, fun h => ?_, fun h => ?_⟩
  · have := h.heads
    omega
  · have := h.heads
    omega

end Lbd.Cbor
