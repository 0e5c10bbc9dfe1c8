import Lbd.CborCodecs
import Lbd.LastWins
import Lbd.MissHandler

/-!
# Commands on the control file

`lbd_ctl_write` of `lbd_main.c` over the decoder of `cbor_dec.h`. The decoder works at positions of
a buffer, and a read behind the end of the string is an outcome of its own; it is shown to do what
the readers of byte lists do.
-/

namespace Lbd.Control

open Cbor MissHandler

/-- `cbor_dec_map` and `cbor_dec_uint` -/
def cborDecMajor (expected : ℕ) (buf : Buffer) (pos : ℕ) : Except BufStop (ℕ × ℕ) := do
  let ((major, val), pos) ← cborDecHead buf pos
  if major = expected then return (val, pos) else .error .refused

/-- `cbor_dec_text` into an array of `cap` bytes. -/
def cborDecText (cap : ℕ) (buf : Buffer) (pos : ℕ) : Except BufStop (List UInt8 × ℕ) := do
  let ((major, slen), pos) ← cborDecHead buf pos
  if major ≠ 3 then .error .refused
  else if cap ≤ slen then .error .refused
  else if buf.len < pos + slen then .error .refused
  else
    let data ← buf.read pos slen
    return (data, pos + slen)

/-- The variables `cmd`, `filter_dev` and `path`, the arrays once they are filled. -/
structure Args where
  cmd : Option (List UInt8)
  filterDev : ℤ
  path : Option (List UInt8)
deriving DecidableEq, Repr

def Args.start : Args := ⟨none, -1, none⟩

/-- `(int)dev_val` -/
def toInt (n : ℕ) : ℤ := (BitVec.ofNat 32 n).toInt

/-- The `switch` over the key. -/
def argument (buf : Buffer) (a : Args) (key pos : ℕ) : Except BufStop (Args × ℕ) :=
  match key with
  | 1 => do
    let (text, pos) ← cborDecText 16 buf pos
    return ({ a with cmd := some text }, pos)
  | 2 => do
    let (val, pos) ← cborDecMajor 0 buf pos
    return ({ a with filterDev := toInt val }, pos)
  | 3 => do
    let (text, pos) ← cborDecText 256 buf pos
    return ({ a with path := some text }, pos)
  | _ => .error .refused

/-- The loop over `map_count` pairs; there is no result when it makes more than `fuel` rounds. -/
def arguments (buf : Buffer) : ℕ → ℕ → Args → ℕ → Option (Except BufStop Args)
  | _, 0, a, _ => some (.ok a)
  | 0, _ + 1, _, _ => none
  | fuel + 1, n + 1, a, pos =>
    match cborDecMajor 0 buf pos with
    | .error e => some (.error e)
    | .ok (key, pos) =>
      match argument buf a key pos with
      | .error e => some (.error e)
      | .ok (a, pos) => arguments buf fuel n a pos

/-- What the command is: the arrays are read up to their first NUL. -/
structure Command where
  cmd : List UInt8
  dev : ℤ
  path : Option (List UInt8)
deriving DecidableEq, Repr

theorem fits_of_short {kbuf : List UInt8} (h : ¬ 512 < kbuf.length) : kbuf.length < W64 := by
  unfold W64
  omega

/-- `lbd_ctl_write` up to the first `strcmp`. -/
def decode (fuel : ℕ) (kbuf : List UInt8) : Option (Except BufStop Command) :=
  if h : 512 < kbuf.length then some (.error .refused)
  else
    let buf : Buffer := ⟨kbuf, fits_of_short h⟩
    match cborDecMajor 5 buf 0 with
    | .error e => some (.error e)
    | .ok (mapCount, pos) =>
      match arguments buf fuel mapCount .start pos with
      | none => none
      | some (.error e) => some (.error e)
      | some (.ok a) =>
        match a.cmd with
        | none => some (.error .refused)
        | some cmd => some (.ok ⟨cString cmd, a.filterDev, a.path.map cString⟩)

/-- `struct lbd_miss_handler`; `pending` is the number of the waiting miss. -/
structure Handler where
  devIndex : ℤ
  pending : Option ℕ
  hasEvent : Bool
deriving DecidableEq, Repr

/-- The parts of `struct lbd_device` that a command looks at. -/
structure Dev where
  isQcow2 : Bool
  hasHandler : Bool
deriving DecidableEq, Repr

/-- `watchers` are the `filter_dev` of `lbd_watchers`, `watcher` and `miss` belong to the open
file. `completed` are the misses answered and `swapped` the calls of `lbd_qcow2_swap_base`. -/
structure State where
  watchers : List ℤ
  watcher : Option ℤ
  miss : Option Handler
  devices : ℤ → Option Dev
  completed : List (ℕ × MissAction)
  swapped : List (ℤ × List UInt8)

/-- Whether memory is there, and what `lbd_qcow2_swap_base` returns. -/
structure Env where
  alloc : Bool
  swapBase : ℤ → List UInt8 → ℤ

inductive Errno where
  | fault (f : BufStop)
  | einval
  | ebusy
  | enomem
  | enodev
  | swap (ret : ℤ)
deriving DecidableEq, Repr

def bytesOf (s : String) : List UInt8 := s.toList.map fun c => UInt8.ofNat c.toNat

def watch (env : Env) (dev : ℤ) (s : State) : Except Errno Unit × State :=
  if s.watcher.isSome then (.error .ebusy, s)
  else if env.alloc then
    (.ok (), { s with watchers := s.watchers ++ [dev], watcher := some dev })
  else (.error .enomem, s)

def manageMisses (env : Env) (dev : ℤ) (s : State) : Except Errno Unit × State :=
  if s.miss.isSome then (.error .ebusy, s)
  else if dev < 0 then (.error .einval, s)
  else if env.alloc then
    match s.devices dev with
    | none => (.error .enodev, s)
    | some d =>
      if d.isQcow2 then
        if d.hasHandler then (.error .ebusy, s)
        else
          (.ok (), { s with
            devices := Function.update s.devices dev (some { d with hasHandler := true })
            miss := some ⟨dev, none, false⟩ })
      else (.error .einval, s)
  else (.error .enomem, s)

/-- `continue` and `retry` -/
def answer (action : MissAction) (s : State) : Except Errno Unit × State :=
  match s.miss with
  | none => (.error .einval, s)
  | some mh =>
    match mh.pending with
    | none => (.error .einval, s)
    | some id =>
      (.ok (), { s with
        miss := some { mh with pending := none, hasEvent := false }
        completed := s.completed ++ [(id, action)] })

def swap (env : Env) (path : Option (List UInt8)) (s : State) : Except Errno Unit × State :=
  match s.miss, path with
  | none, _ => (.error .einval, s)
  | some _, none => (.error .einval, s)
  | some mh, some path =>
    if path = [] then (.error .einval, s)
    else
      match s.devices mh.devIndex with
      | none => (.error .enodev, s)
      | some _ =>
        let s' := { s with swapped := s.swapped ++ [(mh.devIndex, path)] }
        if env.swapBase mh.devIndex path = 0 then (.ok (), s')
        else (.error (.swap (env.swapBase mh.devIndex path)), s')

/-- The comparisons with the known commands. -/
def act (env : Env) (c : Command) (s : State) : Except Errno Unit × State :=
  if c.cmd = bytesOf "watch" then watch env c.dev s
  else if c.cmd = bytesOf "manage_misses" then manageMisses env c.dev s
  else if c.cmd = bytesOf "continue" then answer .missContinue s
  else if c.cmd = bytesOf "retry" then answer .missRetry s
  else if c.cmd = bytesOf "swap" then swap env c.path s
  else (.error .einval, s)

def lbdCtlWrite (env : Env) (fuel : ℕ) (kbuf : List UInt8) (s : State) :
    Option (Except Errno Unit × State) :=
  match decode fuel kbuf with
  | none => none
  | some (.error f) => some (.error (.fault f), s)
  | some (.ok c) => some (act env c s)

/-- A pair of the map. -/
inductive Arg where
  | cmd (text : List UInt8)
  | dev (n : ℕ)
  | path (text : List UInt8)
deriving DecidableEq, Repr

namespace Arg

def cmd? : Arg → Option (List UInt8)
  | cmd text => some text
  | _ => none

def dev? : Arg → Option ℕ
  | dev n => some n
  | _ => none

def path? : Arg → Option (List UInt8)
  | path text => some text
  | _ => none

def key : Arg → ℕ
  | cmd _ => 1
  | dev _ => 2
  | path _ => 3

/-- The bytes encode the value, with heads of any width. -/
def IsValue : Arg → List UInt8 → Prop
  | cmd text, v => text.length < 16 ∧ IsText text v
  | dev n, v => IsHead 0 n v
  | path text, v => text.length < 256 ∧ IsText text v

def Encodes (arg : Arg) (bs : List UInt8) : Prop :=
  ∃ k v, IsHead 0 arg.key k ∧ arg.IsValue v ∧ bs = k ++ v

end Arg

/-- The encodings of the pairs, one behind the other. -/
def EncodesAll : List Arg → List UInt8 → Prop
  | [], bs => bs = []
  | arg :: args, bs => ∃ front back, arg.Encodes front ∧ EncodesAll args back ∧ bs = front ++ back

/-- The string begins with a map of the given pairs, one of them a command. -/
def IsCommand (args : List Arg) (bs : List UInt8) : Prop :=
  (∃ arg ∈ args, arg.cmd?.isSome) ∧
    ∃ hd body rest, IsHead 5 args.length hd ∧ EncodesAll args body ∧ bs = hd ++ (body ++ rest)

def lastCmd (args : List Arg) : Option (List UInt8) := lastSome (args.map Arg.cmd?)

def lastDev (args : List Arg) : Option ℕ := lastSome (args.map Arg.dev?)

def lastPath (args : List Arg) : Option (List UInt8) := lastSome (args.map Arg.path?)

/-- The command says what the last of each kind of pair says; without a device number it is for
all devices. -/
def Command.Means (c : Command) (args : List Arg) : Prop :=
  lastCmd args = some c.cmd ∧ c.dev = ((lastDev args).map fun n => (n : ℤ)).getD (-1) ∧
    c.path = lastPath args

/-- All watchers and handlers are as they were. -/
structure State.Kept (s s' : State) : Prop where
  watchers : s'.watchers = s.watchers
  watcher : s'.watcher = s.watcher
  miss : s'.miss = s.miss
  devices : s'.devices = s.devices
  completed : s'.completed = s.completed

/-- What `lbd_ctl_write` does with a string: with `fuel` for one round a byte it decodes it to
`r`, inside of the string and no matter how much more fuel there is; it accepts exactly the
commands and acts on what they say, and whatever it refuses leaves watchers and handlers as they
are. -/
structure Exact (kbuf : List UInt8) (r : Except BufStop Command) : Prop where
  terminates : ∀ fuel, kbuf.length < fuel → decode fuel kbuf = some r
  inside : r ≠ .error .overrun
  accepts : (∃ c, r = .ok c) ↔ ∃ args, IsCommand args kbuf
  means : ∀ c args, r = .ok c → IsCommand args kbuf → c.Means args
  acts : ∀ c, r = .ok c → ∀ env fuel s, kbuf.length < fuel →
    lbdCtlWrite env fuel kbuf s = some (act env c s)
  refuses : ∀ env fuel s, kbuf.length < fuel → (∀ c, r ≠ .ok c) →
    ∃ e, lbdCtlWrite env fuel kbuf s = some (.error e, s)
  failed : ∀ env fuel s e s', lbdCtlWrite env fuel kbuf s = some (.error e, s') → s.Kept s'

/-- Nothing is lost in the `int` and in the C strings. -/
structure Representable (args : List Arg) : Prop where
  dev : ∀ n, lastDev args = some n → n < 2 ^ 31
  cmd : ∀ text, lastCmd args = some text → 0 ∉ text
  path : ∀ text, lastPath args = some text → 0 ∉ text

/-- The same result, once with a position and once with the list that is left. -/
inductive Reads {α : Type*} (buf : Buffer) (pos : ℕ) :
    Except BufStop (α × ℕ) → Option (α × List UInt8) → Prop
  | ok {a : α} {p : ℕ} (h : pos < p ∧ p ≤ buf.len) :
      Reads buf pos (.ok (a, p)) (some (a, buf.bytes.drop p))
  | fails : Reads buf pos (.error .refused) none

section Reads

variable {buf : Buffer} {pos : ℕ}

theorem read_eq {k : ℕ} (h : pos + k ≤ buf.len) :
    buf.read pos k = .ok ((buf.bytes.drop pos).take k) := if_pos h

theorem takeBytes_drop {k : ℕ} (h : pos + k ≤ buf.len) :
    takeBytes k (buf.bytes.drop pos) =
      some ((buf.bytes.drop pos).take k, buf.bytes.drop (pos + k)) := by
  have hlen : buf.len = buf.bytes.length := rfl
  rw [takeBytes, if_neg (by rw [List.length_drop]; omega), List.drop_drop]

/-- In a buffer of 512 bytes no sum of positions wraps. -/
theorem not_cut_of_short (hbuf : buf.len ≤ 512) (pos : ℕ) : ¬ buf.Cut pos := by
  have hlen : buf.len = buf.bytes.length := rfl
  rcases Nat.lt_or_ge pos buf.len with hlt | hge
  · exact not_cut (by unfold W64; omega)
  · rintro ⟨ib, tl, k, hdrop, -⟩
    rw [List.drop_eq_nil_of_le (by omega)] at hdrop
    cases hdrop

variable (hbuf : buf.len ≤ 512)

include hbuf

theorem reads_head (pos : ℕ) :
    Reads buf pos (cborDecHead buf pos) (decHead (buf.bytes.drop pos)) := by
  cases hdec : decHead (buf.bytes.drop pos) with
  | none =>
    obtain ⟨hcut, -⟩ | ⟨-, he⟩ := cborDecHead_of_decHead_none hdec
    · exact absurd hcut (not_cut_of_short hbuf pos)
    · rw [he]
      exact .fails
  | some x =>
    obtain ⟨⟨major, val⟩, rest⟩ := x
    obtain ⟨hd, hhead, hdrop⟩ := decHead_eq_some.mp hdec
    have hlen : buf.len = buf.bytes.length := rfl
    have hpos : 0 < hd.length := List.length_pos_iff.mpr hhead.ne_nil
    have hlength := congrArg List.length hdrop
    rw [List.length_drop, List.length_append] at hlength
    have hrest : rest = buf.bytes.drop (pos + hd.length) := by
      rw [← List.drop_drop, hdrop, List.drop_left]
    rw [cborDecHead_of_decHead hdec, show buf.len - rest.length = pos + hd.length by omega, hrest]
    exact .ok (by omega)

omit hbuf

theorem Reads.bind {α β : Type*} {r : Except BufStop (α × ℕ)} {o : Option (α × List UInt8)}
    (h : Reads buf pos r o) {f : α × ℕ → Except BufStop (β × ℕ)}
    {g : α × List UInt8 → Option (β × List UInt8)}
    (hfg : ∀ a p, pos < p ∧ p ≤ buf.len → Reads buf pos (f (a, p)) (g (a, buf.bytes.drop p))) :
    Reads buf pos (r.bind f) (o.bind g) := by
  cases h with
  | ok hp => exact hfg _ _ hp
  | fails => exact .fails

include hbuf in
theorem reads_major (expected pos : ℕ) :
    Reads buf pos (cborDecMajor expected buf pos) (decMajor expected (buf.bytes.drop pos)) := by
  refine (reads_head hbuf pos).bind fun a p hp => ?_
  dsimp only
  split_ifs
  · exact .ok hp
  · exact .fails

theorem cborDecText_eq (cap : ℕ) (buf : Buffer) (pos : ℕ) :
    cborDecText cap buf pos = (cborDecMajor 3 buf pos).bind fun x =>
      if cap ≤ x.1 then .error .refused
      else if buf.len < x.2 + x.1 then .error .refused
      else (buf.read x.2 x.1).bind fun data => .ok (data, x.2 + x.1) := by
  unfold cborDecText cborDecMajor
  cases cborDecHead buf pos with
  | error e => rfl
  | ok a =>
    obtain ⟨⟨major, slen⟩, p⟩ := a
    by_cases hmajor : major = 3
    · subst hmajor
      rfl
    · simp [hmajor, bind, Except.bind]

include hbuf in
theorem reads_text (cap pos : ℕ) :
    Reads buf pos (cborDecText cap buf pos) (decText cap (buf.bytes.drop pos)) := by
  have hlength : buf.len = buf.bytes.length := rfl
  rw [cborDecText_eq]
  refine (reads_major hbuf 3 pos).bind fun slen p hp => ?_
  dsimp only
  split_ifs with hcap hlen
  · exact .fails
  · rw [takeBytes, if_pos (by rw [List.length_drop]; omega)]
    exact .fails
  · rw [read_eq (by omega), takeBytes_drop (by omega)]
    exact .ok (by omega)

/-- The `switch` on lists. -/
def listArgument (a : Args) (key : ℕ) (bs : List UInt8) : Option (Args × List UInt8) :=
  match key with
  | 1 => (decText 16 bs).bind fun x => some ({ a with cmd := some x.1 }, x.2)
  | 2 => (decMajor 0 bs).bind fun x => some ({ a with filterDev := toInt x.1 }, x.2)
  | 3 => (decText 256 bs).bind fun x => some ({ a with path := some x.1 }, x.2)
  | _ => none

include hbuf in
theorem reads_argument (a : Args) (key pos : ℕ) :
    Reads buf pos (argument buf a key pos) (listArgument a key (buf.bytes.drop pos)) := by
  unfold argument listArgument
  split
  · exact (reads_text hbuf 16 pos).bind fun _ _ hp => .ok hp
  · exact (reads_major hbuf 0 pos).bind fun _ _ hp => .ok hp
  · exact (reads_text hbuf 256 pos).bind fun _ _ hp => .ok hp
  · exact .fails

end Reads

/-- The loop on lists. -/
def listArguments : ℕ → Args → List UInt8 → Option Args
  | 0, a, _ => some a
  | n + 1, a, bs =>
    (decMajor 0 bs).bind fun x => (listArgument a x.1 x.2).bind fun y => listArguments n y.1 y.2

def orInval {α : Type*} : Option α → Except BufStop α
  | some a => .ok a
  | none => .error .refused

/-- Every round takes at least one byte, so that the loop ends however large the count is. -/
theorem arguments_eq {buf : Buffer} (hbuf : buf.len ≤ 512) {fuel n pos : ℕ} (a : Args)
    (hfuel : buf.len - pos < fuel) :
    arguments buf fuel n a pos = some (orInval (listArguments n a (buf.bytes.drop pos))) := by
  induction fuel generalizing n pos a with
  | zero => omega
  | succ fuel ih =>
    cases n with
    | zero => rfl
    | succ n =>
      have hkey := reads_major hbuf 0 pos
      rw [arguments, listArguments]
      generalize cborDecMajor 0 buf pos = r at hkey
      generalize decMajor 0 (buf.bytes.drop pos) = o at hkey
      cases hkey with
      | fails => rfl
      | @ok key p hp =>
        have harg := reads_argument hbuf a key p
        change (match argument buf a key p with
          | .error e => some (.error e)
          | .ok (a, pos) => arguments buf fuel n a pos) =
            some (orInval ((listArgument a key (buf.bytes.drop p)).bind fun y =>
              listArguments n y.1 y.2))
        generalize argument buf a key p = r at harg
        generalize listArgument a key (buf.bytes.drop p) = o at harg
        cases harg with
        | fails => rfl
        | ok hq => exact ih _ (by omega)

/-- The decoder on lists. -/
def listDecode (bs : List UInt8) : Option Command :=
  (decMajor 5 bs).bind fun x => (listArguments x.1 .start x.2).bind fun a =>
    a.cmd.bind fun cmd => some ⟨cString cmd, a.filterDev, a.path.map cString⟩

theorem decode_eq {kbuf : List UInt8} (h : kbuf.length ≤ 512) {fuel : ℕ}
    (hfuel : kbuf.length < fuel) : decode fuel kbuf = some (orInval (listDecode kbuf)) := by
  have hbuf : Buffer.len ⟨kbuf, fits_of_short (not_lt.mpr h)⟩ ≤ 512 := h
  have hmap := reads_major hbuf 5 0
  rw [List.drop_zero] at hmap
  unfold decode listDecode
  rw [dif_neg (by omega)]
  dsimp only at hmap ⊢
  generalize cborDecMajor 5 ⟨kbuf, _⟩ 0 = r at hmap ⊢
  generalize decMajor 5 kbuf = o at hmap
  cases hmap with
  | fails => rfl
  | @ok n p hp =>
    dsimp only
    rw [arguments_eq hbuf .start (show kbuf.length - p < fuel by omega), Option.bind_some]
    dsimp only
    cases listArguments n .start (kbuf.drop p) with
    | none => rfl
    | some a =>
      obtain ⟨cmd, dev, path⟩ := a
      cases cmd <;> rfl

section Accepted

variable {bs : List UInt8}

def Args.set (a : Args) : Arg → Args
  | .cmd text => { a with cmd := some text }
  | .dev n => { a with filterDev := toInt n }
  | .path text => { a with path := some text }

theorem foldl_set (args : List Arg) (a : Args) :
    args.foldl Args.set a = ⟨(lastCmd args).or a.cmd, ((lastDev args).map toInt).getD a.filterDev,
      (lastPath args).or a.path⟩ := by
  induction args generalizing a with
  | nil => rfl
  | cons arg args ih =>
    rw [List.foldl_cons, ih]
    cases arg with
    | cmd text => simp [Args.set, lastCmd, lastDev, lastPath, Arg.cmd?, Arg.dev?, Arg.path?]
    | path text => simp [Args.set, lastCmd, lastDev, lastPath, Arg.cmd?, Arg.dev?, Arg.path?]
    | dev n =>
      simp only [Args.set, lastCmd, lastDev, lastPath, Arg.cmd?, Arg.dev?, Arg.path?,
        List.map_cons, lastSome_cons, Option.or_none]
      cases lastSome (args.map Arg.dev?) <;> simp

theorem listArgument_eq_some {a a' : Args} {key : ℕ} {rest : List UInt8} :
    listArgument a key bs = some (a', rest) ↔
      ∃ arg v, arg.key = key ∧ arg.IsValue v ∧ bs = v ++ rest ∧ a' = a.set arg := by
  constructor
  · intro h
    unfold listArgument at h
    split at h
    · obtain ⟨⟨text, r⟩, htext, heq⟩ := Option.bind_eq_some_iff.mp h
      cases heq
      obtain ⟨hlt, v, hv, rfl⟩ := decText_eq_some.mp htext
      exact ⟨.cmd text, v, rfl, ⟨hlt, hv⟩, rfl, rfl⟩
    · obtain ⟨⟨n, r⟩, hval, heq⟩ := Option.bind_eq_some_iff.mp h
      cases heq
      obtain ⟨v, hv, rfl⟩ := decMajor_eq_some.mp hval
      exact ⟨.dev n, v, rfl, hv, rfl, rfl⟩
    · obtain ⟨⟨text, r⟩, htext, heq⟩ := Option.bind_eq_some_iff.mp h
      cases heq
      obtain ⟨hlt, v, hv, rfl⟩ := decText_eq_some.mp htext
      exact ⟨.path text, v, rfl, ⟨hlt, hv⟩, rfl, rfl⟩
    · cases h
  · rintro ⟨arg, v, rfl, hv, rfl, rfl⟩
    cases arg with
    | cmd text =>
      have htext : decText 16 (v ++ rest) = some (text, rest) :=
        decText_eq_some.mpr ⟨hv.1, v, hv.2, rfl⟩
      change (decText 16 (v ++ rest)).bind _ = _
      rw [htext]
      rfl
    | dev n =>
      have hval : decMajor 0 (v ++ rest) = some (n, rest) := decMajor_eq_some.mpr ⟨v, hv, rfl⟩
      change (decMajor 0 (v ++ rest)).bind _ = _
      rw [hval]
      rfl
    | path text =>
      have htext : decText 256 (v ++ rest) = some (text, rest) :=
        decText_eq_some.mpr ⟨hv.1, v, hv.2, rfl⟩
      change (decText 256 (v ++ rest)).bind _ = _
      rw [htext]
      rfl

theorem listArguments_eq_some {n : ℕ} {a a' : Args} :
    listArguments n a bs = some a' ↔ ∃ args body rest, args.length = n ∧ EncodesAll args body ∧
      bs = body ++ rest ∧ a' = args.foldl Args.set a := by
  induction n generalizing a bs with
  | zero =>
    constructor
    · intro h
      cases h
      exact ⟨[], [], bs, rfl, rfl, rfl, rfl⟩
    · rintro ⟨args, body, rest, hlen, -, -, rfl⟩
      rw [List.length_eq_zero_iff.mp hlen]
      rfl
  | succ n ih =>
    rw [listArguments]
    constructor
    · intro h
      obtain ⟨⟨key, r⟩, hkey, h⟩ := Option.bind_eq_some_iff.mp h
      obtain ⟨⟨b, r'⟩, harg, h⟩ := Option.bind_eq_some_iff.mp h
      obtain ⟨k, hk, rfl⟩ := decMajor_eq_some.mp hkey
      obtain ⟨arg, v, rfl, hv, hr, rfl⟩ := listArgument_eq_some.mp harg
      obtain ⟨args, body, rest, rfl, hall, hr', rfl⟩ := ih.mp h
      dsimp only at hr hr'
      refine ⟨arg :: args, k ++ v ++ body, rest, rfl,
        ⟨k ++ v, body, ⟨k, v, hk, hv, rfl⟩, hall, rfl⟩, ?_, rfl⟩
      rw [hr, hr']
      simp only [List.append_assoc]
    · rintro ⟨args, body, rest, hlen, hall, rfl, rfl⟩
      cases args with
      | nil => cases hlen
      | cons arg args =>
        obtain ⟨front, back, ⟨k, v, hk, hv, rfl⟩, hback, rfl⟩ := hall
        have hkey : decMajor 0 (k ++ v ++ back ++ rest) = some (arg.key, v ++ (back ++ rest)) :=
          decMajor_eq_some.mpr ⟨k, hk, by simp only [List.append_assoc]⟩
        have harg : listArgument a arg.key (v ++ (back ++ rest)) =
            some (a.set arg, back ++ rest) :=
          listArgument_eq_some.mpr ⟨arg, v, rfl, hv, rfl, rfl⟩
        rw [hkey, Option.bind_some, harg, Option.bind_some]
        exact ih.mpr ⟨args, back, rest, Nat.succ.inj hlen, hback, rfl, rfl⟩

theorem isSome_lastCmd {args : List Arg} :
    (lastCmd args).isSome ↔ ∃ arg ∈ args, arg.cmd?.isSome := by
  rw [Option.isSome_iff_ne_none, Ne, lastCmd, lastSome_eq_none]
  simp [Option.isSome_iff_ne_none]

theorem listDecode_eq_some {c : Command} :
    listDecode bs = some c ↔ ∃ args cmd, IsCommand args bs ∧ lastCmd args = some cmd ∧
      c = ⟨cString cmd, ((lastDev args).map toInt).getD (-1), (lastPath args).map cString⟩ := by
  unfold listDecode
  constructor
  · intro h
    obtain ⟨⟨n, r⟩, hmap, h⟩ := Option.bind_eq_some_iff.mp h
    obtain ⟨a, hargs, h⟩ := Option.bind_eq_some_iff.mp h
    obtain ⟨cmd, hcmd, h⟩ := Option.bind_eq_some_iff.mp h
    cases h
    obtain ⟨hd, hhd, rfl⟩ := decMajor_eq_some.mp hmap
    obtain ⟨args, body, rest, rfl, hall, hr, rfl⟩ := listArguments_eq_some.mp hargs
    rw [foldl_set] at hcmd ⊢
    simp only [Args.start, Option.or_none] at hcmd ⊢
    refine ⟨args, cmd, ⟨isSome_lastCmd.mp (by rw [hcmd]; rfl), hd, body, rest, hhd, hall, ?_⟩,
      hcmd, rfl⟩
    dsimp only at hr
    rw [hr]
  · rintro ⟨args, cmd, ⟨-, hd, body, rest, hhd, hall, rfl⟩, hcmd, rfl⟩
    have hmap : decMajor 5 (hd ++ (body ++ rest)) = some (args.length, body ++ rest) :=
      decMajor_eq_some.mpr ⟨hd, hhd, rfl⟩
    have hargs : listArguments args.length .start (body ++ rest) =
        some (args.foldl Args.set .start) :=
      listArguments_eq_some.mpr ⟨args, body, rest, rfl, hall, rfl, rfl⟩
    rw [hmap, Option.bind_some, hargs, Option.bind_some, foldl_set]
    simp [Args.start, hcmd]

theorem Arg.Encodes.unique {arg arg' : Arg} {front front' back back' : List UInt8}
    (h : arg.Encodes front) (h' : arg'.Encodes front') (heq : front ++ back = front' ++ back') :
    arg = arg' ∧ back = back' := by
  obtain ⟨k, v, hk, hv, rfl⟩ := h
  obtain ⟨k', v', hk', hv', rfl⟩ := h'
  rw [List.append_assoc, List.append_assoc] at heq
  obtain ⟨⟨-, hkeys⟩, hrest⟩ := hk.unique hk' heq
  cases arg <;> cases arg' <;> try cases hkeys
  · obtain ⟨rfl, hback⟩ := hv.2.unique hv'.2 hrest
    exact ⟨rfl, hback⟩
  · obtain ⟨⟨-, rfl⟩, hback⟩ := hv.unique hv' hrest
    exact ⟨rfl, hback⟩
  · obtain ⟨rfl, hback⟩ := hv.2.unique hv'.2 hrest
    exact ⟨rfl, hback⟩

theorem EncodesAll.unique {args args' : List Arg} (hlen : args.length = args'.length)
    {body body' rest rest' : List UInt8} (h : EncodesAll args body) (h' : EncodesAll args' body')
    (heq : body ++ rest = body' ++ rest') : args = args' := by
  induction args generalizing args' body body' with
  | nil => exact (List.length_eq_zero_iff.mp hlen.symm).symm
  | cons arg args ih =>
    cases args' with
    | nil => cases hlen
    | cons arg' args' =>
      obtain ⟨front, back, hfront, hback, rfl⟩ := h
      obtain ⟨front', back', hfront', hback', rfl⟩ := h'
      rw [List.append_assoc, List.append_assoc] at heq
      obtain ⟨rfl, htail⟩ := hfront.unique hfront' heq
      rw [ih (Nat.succ.inj hlen) hback hback' htail]

theorem IsCommand.unique {args args' : List Arg} (h : IsCommand args bs)
    (h' : IsCommand args' bs) : args = args' := by
  obtain ⟨-, hd, body, rest, hhd, hall, rfl⟩ := h
  obtain ⟨-, hd', body', rest', hhd', hall', heq⟩ := h'
  obtain ⟨⟨-, hlen⟩, htail⟩ := hhd.unique hhd' heq
  exact hall.unique hlen hall' htail

end Accepted

theorem toInt_eq_self {n : ℕ} : toInt n = n ↔ n < 2 ^ 31 := by
  unfold toInt
  rw [BitVec.toInt_eq_toNat_cond, BitVec.toNat_ofNat]
  split_ifs <;> omega

section Act

variable {env : Env} {s s' : State} {e : Errno}

theorem State.Kept.refl (s : State) : s.Kept s := ⟨rfl, rfl, rfl, rfl, rfl⟩

theorem kept_of_error {e' : Errno} (h : ((.error e' : Except Errno Unit), s) = (.error e, s')) :
    s.Kept s' := by
  cases h
  exact .refl s

theorem watch_error {dev : ℤ} (h : watch env dev s = (.error e, s')) : s.Kept s' := by
  unfold watch at h
  split_ifs at h
  · exact kept_of_error h
  · cases h
  · exact kept_of_error h

theorem manageMisses_error {dev : ℤ} (h : manageMisses env dev s = (.error e, s')) :
    s.Kept s' := by
  unfold manageMisses at h
  split_ifs at h
  · exact kept_of_error h
  · exact kept_of_error h
  · split at h
    · exact kept_of_error h
    · split_ifs at h
      · exact kept_of_error h
      · cases h
      · exact kept_of_error h
  · exact kept_of_error h

theorem answer_error {action : MissAction} (h : answer action s = (.error e, s')) :
    s.Kept s' := by
  unfold answer at h
  split at h
  · exact kept_of_error h
  · split at h
    · exact kept_of_error h
    · cases h

theorem swap_error {path : Option (List UInt8)} (h : swap env path s = (.error e, s')) :
    s.Kept s' := by
  unfold swap at h
  split at h
  · exact kept_of_error h
  · exact kept_of_error h
  · split at h
    · exact kept_of_error h
    · split at h
      · exact kept_of_error h
      · dsimp only at h
        split at h
        · cases h
        · cases h
          exact ⟨rfl, rfl, rfl, rfl, rfl⟩

theorem act_error {c : Command} (h : act env c s = (.error e, s')) : s.Kept s' := by
  unfold act at h
  split_ifs at h
  · exact watch_error h
  · exact manageMisses_error h
  · exact answer_error h
  · exact answer_error h
  · exact swap_error h
  · exact kept_of_error h

end Act

section Exact

variable {kbuf : List UInt8}

/-- What holds of every string; the values are those of the `int` and of the C strings. -/
theorem exact_of_represented (h : kbuf.length ≤ 512)
    (hrep : ∀ args, IsCommand args kbuf → Representable args) :
    Exact kbuf (orInval (listDecode kbuf)) where
  terminates fuel hfuel := decode_eq h hfuel
  inside := by
    cases listDecode kbuf <;> nofun
  accepts := by
    constructor
    · rintro ⟨c, hc⟩
      cases hl : listDecode kbuf with
      | none => rw [hl] at hc; cases hc
      | some c' =>
        obtain ⟨args, -, hargs, -⟩ := listDecode_eq_some.mp hl
        exact ⟨args, hargs⟩
    · rintro ⟨args, hargs⟩
      obtain ⟨cmd, hcmd⟩ := Option.isSome_iff_exists.mp (isSome_lastCmd.mpr hargs.1)
      rw [listDecode_eq_some.mpr ⟨args, cmd, hargs, hcmd, rfl⟩]
      exact ⟨_, rfl⟩
  means := by
    intro c args hc hargs
    obtain ⟨cmd, hcmd⟩ := Option.isSome_iff_exists.mp (isSome_lastCmd.mpr hargs.1)
    rw [listDecode_eq_some.mpr ⟨args, cmd, hargs, hcmd, rfl⟩] at hc
    cases hc
    have hr := hrep args hargs
    refine ⟨?_, ?_, ?_⟩
    · rw [hcmd, cString_eq_self.mpr (hr.cmd cmd hcmd)]
    · cases hdev : lastDev args with
      | none => rfl
      | some n => exact toInt_eq_self.mpr (hr.dev n hdev)
    · cases hpath : lastPath args with
      | none => rfl
      | some text => exact congrArg some (cString_eq_self.mpr (hr.path text hpath))
  acts := by
    intro c hc env fuel s hfuel
    unfold lbdCtlWrite
    rw [decode_eq h hfuel, hc]
  refuses := by
    intro env fuel s hfuel hno
    unfold lbdCtlWrite
    rw [decode_eq h hfuel]
    cases hl : listDecode kbuf with
    | none => exact ⟨_, rfl⟩
    | some c => exact absurd (by rw [hl]; rfl) (hno c)
  failed := by
    intro env fuel s e s' hw
    unfold lbdCtlWrite at hw
    split at hw
    · cases hw
    · exact kept_of_error (Option.some.inj hw)
    · exact act_error (Option.some.inj hw)

/-- The control file does with a string what the string says exactly if nothing that it says is
lost in an `int` or behind a NUL. -/
theorem ctlWrite_exact_iff (h : kbuf.length ≤ 512) :
    (∃ r, Exact kbuf r) ↔ ∀ args, IsCommand args kbuf → Representable args := by
  refine ⟨?_, fun hrep => ⟨_, exact_of_represented h hrep⟩⟩
  rintro ⟨r, hr⟩ args hargs
  have hdecode := hr.terminates (kbuf.length + 1) (by omega)
  rw [decode_eq h (by omega)] at hdecode
  obtain ⟨cmd, hcmd⟩ := Option.isSome_iff_exists.mp (isSome_lastCmd.mpr hargs.1)
  rw [listDecode_eq_some.mpr ⟨args, cmd, hargs, hcmd, rfl⟩] at hdecode
  obtain ⟨hsame, hdev, hpath⟩ := hr.means _ args (Option.some.inj hdecode).symm hargs
  refine ⟨fun n hn => ?_, fun text htext => ?_, fun text htext => ?_⟩
  · rw [hn] at hdev
    exact toInt_eq_self.mp hdev
  · rw [htext] at hcmd hsame
    cases hcmd
    exact cString_eq_self.mp (Option.some.inj hsame).symm
  · rw [htext] at hpath
    exact cString_eq_self.mp (Option.some.inj hpath)

end Exact

namespace Arg

/-- The value has a place in the array or in 64 bits. -/
def Fits : Arg → Prop
  | cmd text => text.length < 16
  | dev n => n < 2 ^ 64
  | path text => text.length < 256

def encode (arg : Arg) : List UInt8 :=
  encHead 0 arg.key ++ match arg with
    | cmd text => encHead 3 text.length ++ text
    | dev n => encHead 0 n
    | path text => encHead 3 text.length ++ text

theorem isText_encode {text : List UInt8} (h : text.length < 256) :
    IsText text (encHead 3 text.length ++ text) :=
  ⟨_, isHead_encHead (by decide) (by omega), rfl⟩

theorem Fits.encodes {arg : Arg} (h : arg.Fits) : arg.Encodes arg.encode := by
  have hkey : IsHead 0 arg.key (encHead 0 arg.key) :=
    isHead_encHead (by decide) (by cases arg <;> simp [key])
  refine ⟨_, _, hkey, ?_, rfl⟩
  cases arg with
  | cmd text => exact ⟨h, isText_encode (lt_trans h (by decide))⟩
  | dev n => exact isHead_encHead (by decide) h
  | path text => exact ⟨h, isText_encode h⟩

end Arg

def encCommand (args : List Arg) : List UInt8 := encHead 5 args.length ++ args.flatMap Arg.encode

theorem isCommand_encCommand {args : List Arg} (hlen : args.length < 2 ^ 64)
    (hcmd : ∃ arg ∈ args, arg.cmd?.isSome) (h : ∀ arg ∈ args, arg.Fits) :
    IsCommand args (encCommand args) := by
  have hall : EncodesAll args (args.flatMap Arg.encode) := by
    clear hlen hcmd
    induction args with
    | nil => rfl
    | cons arg args ih =>
      obtain ⟨harg, hargs⟩ := List.forall_mem_cons.mp h
      exact ⟨_, _, harg.encodes, ih hargs, rfl⟩
  exact ⟨hcmd, _, _, [], isHead_encHead (by decide) hlen, hall, by rw [List.append_nil]; rfl⟩

/-- `watch` for one device. -/
def watchDevice (n : ℕ) : List Arg := [.cmd [119, 97, 116, 99, 104], .dev n]

theorem isCommand_watchDevice {n : ℕ} (h : n < 2 ^ 64) :
    IsCommand (watchDevice n) (encCommand (watchDevice n)) := by
  refine isCommand_encCommand (by simp [watchDevice]) ⟨_, List.mem_cons_self .., rfl⟩ ?_
  simpa [watchDevice, Arg.Fits] using h

theorem watchDevice_exact : ∃ r, Exact (encCommand (watchDevice 3)) r := by
  refine (ctlWrite_exact_iff (by decide)).mpr fun args hargs => ?_
  rw [hargs.unique (isCommand_watchDevice (by decide))]
  refine ⟨fun n hn => ?_, fun text htext => ?_, fun text htext => ?_⟩
  · cases hn
    decide
  · cases htext
    decide
  · cases htext

/-- `watch` for the device `2^32` watches device 0. -/
theorem wide_device_watches_first :
    IsCommand (watchDevice (2 ^ 32)) (encCommand (watchDevice (2 ^ 32))) ∧
      decode 19 (encCommand (watchDevice (2 ^ 32))) =
        some (.ok ⟨[119, 97, 116, 99, 104], 0, none⟩) ∧
      ¬∃ r, Exact (encCommand (watchDevice (2 ^ 32))) r := by
  have hargs := isCommand_watchDevice (n := 2 ^ 32) (by decide)
  refine ⟨hargs, by decide, fun h => ?_⟩
  obtain ⟨r, hr⟩ := h
  have hdecode := hr.terminates 19 (by decide)
  have hfirst : decode 19 (encCommand (watchDevice (2 ^ 32))) =
      some (.ok ⟨[119, 97, 116, 99, 104], 0, none⟩) := by decide
  rw [hfirst] at hdecode
  have hdev := (hr.means _ _ (Option.some.inj hdecode).symm hargs).2.1
  revert hdev
  decide

end Lbd.Control
