import SourceLabel.Error
import SourceLabel.Proofs.Bytes

/-!
# Readers on a machine

The readers are defined on sequences that are taken apart from the front, where nothing can go wrong but what
a reader finds wrong with the bytes. On a machine they are run with positions instead: a number has to fit
into a word, a difference must not be negative, a slice must lie within the bytes, and a loop has to come to
its end by itself. What breaks one of these rules is a trap. A trap is no failure that a reader returns; it
takes the place of any result.

Here are the operations of the machine, and what they come to where their rules are kept. That memory runs
out is not considered: only the size that is asked for has to be one that can be asked for.
-/
namespace SourceLabel.Machine

/-- Why a run breaks off without a result. -/
inductive Trap where
  /-- A sum does not fit into a word. -/
  | overflow
  /-- A difference is negative. -/
  | underflow
  | outOfRange
  /-- More memory is asked for than there can be. -/
  | tooLarge
  /-- A loop goes on for longer than it may. -/
  | endless
deriving DecidableEq, Repr

/-- What a run comes to if no trap ends it. -/
abbrev Checked := Except Trap

/-- A run that may also end with a failure, which is a value. -/
abbrev Guarded (ε : Type) := ExceptT ε Checked

/-- A run that reads from a stream of bytes; the state is the position in the stream. -/
abbrev Reading (ε : Type) := ExceptT ε (StateT Nat Checked)

variable {α β ε : Type}

/-! ## Words and memory -/

/-- Words have 64 bits. -/
def wordBound : Nat := 0x10000000000000000

/-- Bytes in memory are fewer than this. -/
def lengthBound : Nat := 0x8000000000000000

/-- What an element of a list takes at most, beside what it refers to. -/
def elementSize : Nat := 512

def add (a b : Nat) : Checked Nat :=
  if a + b < wordBound then .ok (a + b) else .error .overflow

def sub (a b : Nat) : Checked Nat :=
  if b ≤ a then .ok (a - b) else .error .underflow

/-- The value that has to be there. -/
def fetch : Option α → Checked α
  | some x => .ok x
  | none => .error .outOfRange

def allocate (size : Nat) : Checked Unit :=
  if size < lengthBound then .ok () else .error .tooLarge

def add? (a b : Nat) : Option Nat :=
  if a + b < wordBound then some (a + b) else none

def slice? (b : Bytes) (start stop : Nat) : Option Bytes :=
  if start ≤ stop ∧ stop ≤ b.length then some ((b.take stop).drop start) else none

def slice (b : Bytes) (start stop : Nat) : Checked Bytes :=
  fetch (slice? b start stop)

def u16At (b : Bytes) (pos : Nat) : Checked (Option UInt16) :=
  match (add? pos 2).bind (slice? b pos) with
  | none => return none
  | some field => do
    let lo ← fetch field[0]?
    let hi ← fetch field[1]?
    return some (UInt16.ofNat (lo.toNat + 256 * hi.toNat))

def u32At (b : Bytes) (pos : Nat) : Checked (Option UInt32) :=
  match (add? pos 4).bind (slice? b pos) with
  | none => return none
  | some field => do
    let b₀ ← fetch field[0]?
    let b₁ ← fetch field[1]?
    let b₂ ← fetch field[2]?
    let b₃ ← fetch field[3]?
    return some (UInt32.ofNat (b₀.toNat + 256 * b₁.toNat + 65536 * b₂.toNat + 16777216 * b₃.toNat))

/-- The field at `offset` of what starts at `pos`; zero if it is not all there. -/
def field16 (b : Bytes) (pos offset : Nat) : Checked UInt16 := do
  let field ← u16At b (← add pos offset)
  return field.getD 0

def field32 (b : Bytes) (pos offset : Nat) : Checked UInt32 := do
  let field ← u32At b (← add pos offset)
  return field.getD 0

/-! ## Failures -/

def answer (r : Except ε α) : Guarded ε α :=
  ExceptT.mk (.ok r)

/-- Fails if the condition holds. -/
def refuse (c : Prop) [Decidable c] (e : ε) : Guarded ε Unit :=
  answer (if c then .error e else .ok ())

/-! ## Streams -/

/-- A run that leaves the stream alone. -/
def aside (x : Guarded ε α) : Reading ε α :=
  ExceptT.mk fun pos => x.run.map (·, pos)

instance : MonadLift (Guarded ε) (Reading ε) := ⟨aside⟩

def seek (pos : Nat) : Reading ε Unit :=
  ExceptT.mk fun _ => .ok (.ok (), pos)

def skip (n : Nat) : Reading ε Unit :=
  ExceptT.mk fun pos => (add pos n).map (.ok (), ·)

def readExact (b : Bytes) (n : Nat) : Reading Error Bytes := do
  allocate n
  ExceptT.mk fun pos =>
    if n ≤ b.length - pos then (add pos n).map (.ok ((b.drop pos).take n), ·)
    else .ok (.error (.io .shortRead), b.length)

/-- From this position the run comes to this result or failure. -/
def Answers (x : Reading ε α) (pos : Nat) (r : Except ε α) : Prop :=
  ∃ pos', x.run.run pos = .ok (r, pos')

/-! ## Where the rules are kept -/

theorem wordBound_eq : wordBound = 18446744073709551616 := rfl

theorem lengthBound_eq : lengthBound = 9223372036854775808 := rfl

@[simp] theorem ok_bind (a : α) (k : α → Except ε β) : (Except.ok a >>= k) = k a := rfl

theorem add_eq {a b : Nat} (h : a + b < wordBound) : add a b = .ok (a + b) :=
  if_pos h

theorem sub_eq {a b : Nat} (h : b ≤ a) : sub a b = .ok (a - b) :=
  if_pos h

theorem allocate_eq {size : Nat} (h : size < lengthBound) : allocate size = .ok () :=
  if_pos h

@[simp] theorem fetch_some (x : α) : fetch (some x) = .ok x := rfl

theorem slice?_eq {b : Bytes} {start stop : Nat} (h : start ≤ stop) (h' : stop ≤ b.length) :
    slice? b start stop = some ((b.drop start).take (stop - start)) := by
  rw [slice?, if_pos ⟨h, h'⟩, List.drop_take]

theorem slice_eq {b : Bytes} {start stop : Nat} (h : start ≤ stop) (h' : stop ≤ b.length) :
    slice b start stop = .ok ((b.drop start).take (stop - start)) := by
  rw [slice, slice?_eq h h']
  rfl

theorem slice_of_drop {b front part rest : Bytes} {pos : Nat} (hpos : pos ≤ b.length)
    (h : b.drop pos = front ++ (part ++ rest)) :
    slice b (pos + front.length) (pos + front.length + part.length) = .ok part := by
  have hlength := congrArg List.length h
  simp only [List.length_drop, List.length_append] at hlength
  rw [slice_eq (Nat.le_add_right _ _) (by omega), ← List.drop_drop, h, List.drop_left, Nat.add_sub_cancel_left,
    List.take_left]

/-- Where the bytes end, there is nothing to be sliced. -/
theorem slice?_add? {b : Bytes} (hb : b.length < lengthBound) (start length : Nat) :
    (add? start length).bind (slice? b start) =
      if start + length ≤ b.length then some ((b.drop start).take length) else none := by
  have hword := wordBound_eq
  have hbound := lengthBound_eq
  by_cases h : start + length ≤ b.length
  · have hadd : add? start length = some (start + length) := if_pos (by omega)
    rw [if_pos h, hadd, Option.bind_some, slice?_eq (Nat.le_add_right _ _) h, Nat.add_sub_cancel_left]
  · have hnone : slice? b start (start + length) = none := if_neg fun hle => h hle.2
    rw [if_neg h, add?]
    split
    · exact hnone
    · rfl

theorem u16At_eq {b : Bytes} (hb : b.length < lengthBound) (pos : Nat) :
    u16At b pos = .ok (Bytes.u16At? b pos) := by
  have hlength : (b.drop pos).length = b.length - pos := List.length_drop
  rw [u16At, slice?_add? hb, Bytes.u16At?]
  rcases hdrop : b.drop pos with _ | ⟨lo, _ | ⟨hi, rest⟩⟩
  · rw [hdrop, List.length_nil] at hlength
    rw [if_neg (by omega)]
    rfl
  · rw [hdrop, List.length_singleton] at hlength
    rw [if_neg (by omega)]
    rfl
  · rw [hdrop, List.length_cons, List.length_cons] at hlength
    rw [if_pos (by omega)]
    rfl

theorem u32At_eq {b : Bytes} (hb : b.length < lengthBound) (pos : Nat) :
    u32At b pos = .ok (Bytes.u32At? b pos) := by
  have hlength : (b.drop pos).length = b.length - pos := List.length_drop
  rw [u32At, slice?_add? hb, Bytes.u32At?]
  rcases hdrop : b.drop pos with _ | ⟨_, _ | ⟨_, _ | ⟨_, _ | ⟨_, rest⟩⟩⟩⟩
  case cons.cons.cons.cons =>
    rw [hdrop] at hlength
    simp only [List.length_cons] at hlength
    rw [if_pos (by omega)]
    rfl
  all_goals
    rw [hdrop] at hlength
    simp only [List.length_cons, List.length_nil] at hlength
    rw [if_neg (by omega)]
    rfl

theorem u16At_of_drop {b rest : Bytes} {pos : Nat} {n : UInt16} (hb : b.length < lengthBound)
    (h : b.drop pos = Bytes.le16 n ++ rest) : u16At b pos = .ok (some n) := by
  rw [u16At_eq hb, Bytes.u16At?, h, Bytes.take16?_le16]
  rfl

theorem u32At_of_drop {b rest : Bytes} {pos : Nat} {n : UInt32} (hb : b.length < lengthBound)
    (h : b.drop pos = Bytes.le32 n ++ rest) : u32At b pos = .ok (some n) := by
  rw [u32At_eq hb, Bytes.u32At?, h, Bytes.take32?_le32]
  rfl

theorem field16_of_drop {b rest : Bytes} {pos offset : Nat} {n : UInt16} (hb : b.length < lengthBound)
    (h : (b.drop pos).drop offset = Bytes.le16 n ++ rest) : field16 b pos offset = .ok n := by
  have hword := wordBound_eq
  have hbound := lengthBound_eq
  rw [List.drop_drop] at h
  have hlength := congrArg List.length h
  rw [List.length_drop, List.length_append, show (Bytes.le16 n).length = 2 from rfl] at hlength
  rw [field16, add_eq (by omega), ok_bind, u16At_of_drop hb h]
  rfl

theorem field32_of_drop {b rest : Bytes} {pos offset : Nat} {n : UInt32} (hb : b.length < lengthBound)
    (h : (b.drop pos).drop offset = Bytes.le32 n ++ rest) : field32 b pos offset = .ok n := by
  have hword := wordBound_eq
  have hbound := lengthBound_eq
  rw [List.drop_drop] at h
  have hlength := congrArg List.length h
  rw [List.length_drop, List.length_append, show (Bytes.le32 n).length = 4 from rfl] at hlength
  rw [field32, add_eq (by omega), ok_bind, u32At_of_drop hb h]
  rfl

/-! ## One step after another -/

@[simp] theorem lift_bind (a : α) (k : α → Guarded ε β) : (liftM (Except.ok a : Checked α) >>= k) = k a := rfl

@[simp] theorem answer_ok_bind (a : α) (k : α → Guarded ε β) : (answer (.ok a) >>= k) = k a := rfl

@[simp] theorem answer_error_bind (e : ε) (k : α → Guarded ε β) : (answer (.error e) >>= k) = answer (.error e) := rfl

/-! ## Streams -/

variable {x : Reading ε α} {k : α → Reading ε β} {pos pos' : Nat} {r : Except ε β}

@[simp] theorem lift_checked_bind (a : α) (k : α → Reading ε β) : (liftM (Except.ok a : Checked α) >>= k) = k a := rfl

@[simp] theorem lift_answer_ok_bind (a : α) (k : α → Reading ε β) :
    (liftM (answer (.ok a : Except ε α)) >>= k) = k a := rfl

theorem Answers.pure (a : α) : Answers (Pure.pure a : Reading ε α) pos (.ok a) :=
  ⟨pos, rfl⟩

theorem Answers.throw (e : ε) : Answers (throw e : Reading ε α) pos (.error e) :=
  ⟨pos, rfl⟩

theorem Answers.lift (r : Except ε α) : Answers (liftM (answer r) : Reading ε α) pos r :=
  ⟨pos, rfl⟩

theorem Answers.of_eq {x : Guarded ε α} {r : Except ε α} (h : x = answer r) :
    Answers (liftM x : Reading ε α) pos r := by
  subst h
  exact .lift r

theorem run_bind (x : Reading ε α) (k : α → Reading ε β) (pos : Nat) :
    (x >>= k).run.run pos = (x.run.run pos).bind fun
      | (.ok a, pos') => (k a).run.run pos'
      | (.error e, pos') => .ok (.error e, pos') := by
  show (x.run.run pos).bind _ = _
  rcases x.run.run pos with t | ⟨e | a, pos'⟩ <;> rfl

theorem Answers.bind {a : α} (hx : x.run.run pos = .ok (.ok a, pos')) (hk : Answers (k a) pos' r) :
    Answers (x >>= k) pos r := by
  obtain ⟨last, hlast⟩ := hk
  refine ⟨last, ?_⟩
  rw [run_bind, hx]
  exact hlast

theorem Answers.bind_error {e : ε} (hx : Answers x pos (.error e)) : Answers (x >>= k) pos (.error e) := by
  obtain ⟨last, hlast⟩ := hx
  refine ⟨last, ?_⟩
  rw [run_bind, hlast]
  rfl

theorem Answers.bind_of_forall {rx : Except ε α} {rk : α → Except ε β} (hx : Answers x pos rx)
    (hk : ∀ a, rx = .ok a → ∀ pos', Answers (k a) pos' (rk a)) : Answers (x >>= k) pos (rx >>= rk) := by
  cases rx with
  | error e => exact hx.bind_error
  | ok a =>
    obtain ⟨pos', hrun⟩ := hx
    exact .bind hrun (hk a rfl pos')

theorem Answers.seek {k : Unit → Reading ε β} (hk : Answers (k ()) pos' r) :
    Answers (Machine.seek pos' >>= k) pos r :=
  .bind rfl hk

theorem run_skip {n : Nat} (h : pos + n < wordBound) :
    (skip n : Reading ε Unit).run.run pos = .ok (.ok (), pos + n) := by
  show (add pos n).map _ = _
  rw [add_eq h]
  rfl

theorem Answers.skip {k : Unit → Reading ε β} {n : Nat} (h : pos + n < wordBound)
    (hk : Answers (k ()) (pos + n) r) : Answers (Machine.skip n >>= k) pos r :=
  .bind (run_skip h) hk

section Reads

variable {b : Bytes} {n : Nat} {k : Bytes → Reading Error β} {r : Except Error β}

theorem run_readExact (hn : n < lengthBound) (h : pos + n < wordBound) :
    (readExact b n).run.run pos =
      .ok (if n ≤ b.length - pos then (.ok ((b.drop pos).take n), pos + n)
        else (.error (.io .shortRead), b.length)) := by
  rw [readExact, allocate_eq hn, lift_checked_bind]
  show (if n ≤ b.length - pos then _ else _) = _
  rw [add_eq h]
  split <;> rfl

theorem Answers.readExact {part rest : Bytes} (hn : n < lengthBound) (h : pos + n < wordBound)
    (hcut : Bytes.takeExact? n (b.drop pos) = some (part, rest)) (hk : Answers (k part) (pos + n) r) :
    Answers (Machine.readExact b n >>= k) pos r := by
  rw [Bytes.takeExact?_eq, List.length_drop] at hcut
  split at hcut
  · next hle =>
    obtain ⟨rfl, -⟩ := Prod.mk.inj (Option.some.inj hcut)
    refine .bind ?_ hk
    rw [run_readExact hn h, if_pos hle]
  · exact nomatch hcut

theorem Answers.readExact_short (hn : n < lengthBound) (h : pos + n < wordBound)
    (hcut : Bytes.takeExact? n (b.drop pos) = none) :
    Answers (Machine.readExact b n >>= k) pos (.error (.io .shortRead)) := by
  rw [Bytes.takeExact?_eq, List.length_drop] at hcut
  split at hcut
  · exact nomatch hcut
  · next hle =>
    refine .bind_error ⟨b.length, ?_⟩
    rw [run_readExact hn h, if_neg hle]

end Reads

end SourceLabel.Machine
