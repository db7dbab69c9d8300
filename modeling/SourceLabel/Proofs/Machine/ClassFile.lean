import SourceLabel.Proofs.Machine.Text
import SourceLabel.Proofs.ClassFile.Holder
import SourceLabel.Proofs.ClassFile.Layout

/-!
# Class files on a machine

The parser keeps a position in the bytes and slices each field out at it. A reader takes its fields off the
front of what is left. The two keep in step, one field after another, so the position never passes the end of
the bytes, and that carries the parser through a whole class file.

What can be asked of a class afterwards relies on checks that were made when it was read: that a text is short,
and that the attribute with the label holds two bytes.
-/
namespace SourceLabel.Machine.Parser

open ClassFile

variable {α β : Type}

/-! ## The machine -/

abbrev Parsing := Reading ClassError

def remaining (b : Bytes) : Parsing Nat := do
  sub b.length (← get)

/-- The next `length` bytes, which make up the field `what`. -/
def bytes (b : Bytes) (what : String) (length : Nat) : Parsing Bytes := do
  let left ← remaining b
  let pos ← get
  if left < length then throw ⟨pos, .truncated what length left⟩
  else
    let stop ← add pos length
    let field ← slice b pos stop
    skip length
    return field

def u8 (b : Bytes) (what : String) : Parsing UInt8 := do
  let field ← bytes b what 1
  fetch field[0]?

def u16 (b : Bytes) (what : String) : Parsing UInt16 := do
  let field ← bytes b what 2
  let hi ← fetch field[0]?
  let lo ← fetch field[1]?
  return Bytes.ofBE16 hi lo

def u32 (b : Bytes) (what : String) : Parsing UInt32 := do
  let field ← bytes b what 4
  let b₀ ← fetch field[0]?
  let b₁ ← fetch field[1]?
  let b₂ ← fetch field[2]?
  let b₃ ← fetch field[3]?
  return Bytes.ofBE32 b₀ b₁ b₂ b₃

def u64 (b : Bytes) (what : String) : Parsing UInt64 := do
  let field ← bytes b what 8
  let b₀ ← fetch field[0]?
  let b₁ ← fetch field[1]?
  let b₂ ← fetch field[2]?
  let b₃ ← fetch field[3]?
  let b₄ ← fetch field[4]?
  let b₅ ← fetch field[5]?
  let b₆ ← fetch field[6]?
  let b₇ ← fetch field[7]?
  return Bytes.ofBE64 (Bytes.ofBE32 b₀ b₁ b₂ b₃) (Bytes.ofBE32 b₄ b₅ b₆ b₇)

/-- Reads `count` things of one kind, after those that there are. -/
def timesFrom (read : Parsing α) : List α → (count : Nat) → Parsing (List α)
  | xs, 0 => return xs.reverse
  | xs, count + 1 => do
    let x ← read
    timesFrom read (x :: xs) count

def times (count : Nat) (read : Parsing α) : Parsing (List α) := do
  allocate (elementSize * count)
  timesFrom read [] count

def readOne (b : Bytes) (make : Index → Constant) : Parsing Constant := do
  let i ← u16 b "constant"
  return make i

def readTwo (b : Bytes) (make : Index → Index → Constant) : Parsing Constant := do
  let i ← u16 b "constant"
  let j ← u16 b "constant"
  return make i j

def readBody (b : Bytes) (start : Nat) (tag : UInt8) : Parsing Constant := do
  match tag.toNat with
  | 1 =>
    let length ← u16 b "utf8 length"
    let text ← bytes b "utf8 constant" length.toNat
    return .utf8 text
  | 3 => return .integer (← u32 b "constant")
  | 4 => return .float (← u32 b "constant")
  | 5 => return .long (← u64 b "constant")
  | 6 => return .double (← u64 b "constant")
  | 7 => readOne b .classRef
  | 8 => readOne b .string
  | 9 => readTwo b .fieldRef
  | 10 => readTwo b .methodRef
  | 11 => readTwo b .interfaceMethodRef
  | 12 => readTwo b .nameAndType
  | 15 =>
    let kind ← u8 b "constant"
    readOne b (.methodHandle kind)
  | 16 => readOne b .methodType
  | 17 => readTwo b .dynamic
  | 18 => readTwo b .invokeDynamic
  | 19 => readOne b .module
  | 20 => readOne b .package
  | _ => throw ⟨start, .unknownTag tag⟩

def readConstant (b : Bytes) : Parsing Constant := do
  let start ← get
  let tag ← u8 b "constant tag"
  readBody b start tag

/-- Fills slots as long as there are fewer than `count`. -/
def slotsFrom (b : Bytes) (count : Nat) : (steps : Nat) → Array (Option Constant) →
    Parsing (Array (Option Constant))
  | 0, _ => (throw .endless : Checked _)
  | steps + 1, slots =>
    if slots.size < count then do
      let start ← get
      let k ← readConstant b
      let slots := slots.push (some k)
      if k.isWide then
        if count ≤ slots.size then throw ⟨start, .wideInLastSlot⟩
        else slotsFrom b count steps (slots.push none)
      else slotsFrom b count steps slots
    else return slots

def readPool (b : Bytes) : Parsing ConstantPool := do
  let count ← u16 b "constant pool count"
  if count = 0 then
    throw ⟨← get, .noPoolSlots⟩
  else
    allocate (elementSize * count.toNat)
    let slots ← slotsFrom b count.toNat (count.toNat + 1) #[none]
    return ⟨slots⟩

def readAttribute (b : Bytes) : Parsing Attribute := do
  let name ← u16 b "attribute name"
  let length ← u32 b "attribute length"
  let payload ← bytes b "attribute" length.toNat
  return ⟨name, payload⟩

def readAttributes (b : Bytes) : Parsing (List Attribute) := do
  let count ← u16 b "attribute count"
  times count.toNat (readAttribute b)

def readMember (b : Bytes) (what : String) : Parsing Member := do
  let access ← u16 b what
  let name ← u16 b what
  let descriptor ← u16 b what
  let attributes ← readAttributes b
  return ⟨access, name, descriptor, attributes⟩

def readMembers (b : Bytes) (what : String) : Parsing (List Member) := do
  let count ← u16 b what
  times count.toNat (readMember b what)

def lossyText? (p : ConstantPool) (i : Index) : Checked (Option String) :=
  match p.textBytes? i with
  | none => return none
  | some text => some <$> decodeLossy text

def className? (p : ConstantPool) (i : Index) : Checked (Option String) :=
  match p.get? i with
  | some (.classRef name) => lossyText? p name
  | _ => return none

def text? (p : ConstantPool) (i : Index) : Checked (Option String) :=
  match p.textBytes? i with
  | none => return none
  | some text => do
    let r ← (decode text).run
    return r.toOption

/-- Nothing stands behind the class. -/
def checkEnd (b : Bytes) : Parsing Unit := do
  let left ← remaining b
  if left ≠ 0 then
    throw ⟨← get, .trailing left⟩

/-- The attribute that holds the label holds an index. -/
def checkLabel (c : ClassFile) (start : Nat) : Parsing ClassFile :=
  match c.labelAttribute? with
  | none => return c
  | some a =>
    if a.payload.length = 2 then return c
    else throw ⟨start, .labelLength a.payload.length⟩

def readClass (b : Bytes) : Parsing ClassFile := do
  let sign ← u32 b "magic"
  if sign ≠ magic then throw ⟨0, .badMagic sign⟩
  else
    let minor ← u16 b "minor version"
    let major ← u16 b "major version"
    let pool ← readPool b
    let access ← u16 b "access flags"
    let thisAt ← get
    let thisClass ← u16 b "this_class"
    let superClass ← u16 b "super_class"
    match ← className? pool thisClass with
    | none => throw ⟨thisAt, .unnamed thisClass⟩
    | some name =>
      let interfaceCount ← u16 b "interface count"
      let interfaces ← times interfaceCount.toNat (u16 b "interface")
      let fields ← readMembers b "field"
      let methods ← readMembers b "method"
      let attributesAt ← get
      let attributes ← readAttributes b
      checkEnd b
      checkLabel ⟨minor, major, pool, access, thisClass, superClass, interfaces, fields, methods,
        attributes, name⟩ attributesAt

def parse (b : Bytes) : Guarded ClassError ClassFile :=
  ExceptT.mk do
    let (r, _) ← (readClass b).run.run 0
    return r

/-- The index that the attribute with the label holds, if there is such an attribute. -/
def labelIndex? (c : ClassFile) : Checked (Option Index) :=
  match c.labelAttribute? with
  | none => return none
  | some a => do
    let hi ← fetch a.payload[0]?
    let lo ← fetch a.payload[1]?
    return some (Bytes.ofBE16 hi lo)

def label? (c : ClassFile) : Checked (Option String) := do
  match ← labelIndex? c with
  | none => return none
  | some i => text? c.pool i

/-! ## In step with a reader -/

/-- What the parser comes to is what the reader comes to, and they stand at the same place then. -/
inductive Outcome (b : Bytes) : Except ClassError (α × Cursor) → Checked (Except ClassError α × Nat) → Prop
  | failed {e : ClassError} {pos : Nat} : Outcome b (.error e) (.ok (.error e, pos))
  | ended {x : α} {pos : Nat} : pos ≤ b.length → Outcome b (.ok (x, ⟨b.drop pos, pos⟩)) (.ok (.ok x, pos))

/-- From every place in the bytes, the parser comes to what the reader comes to. -/
def Follows (b : Bytes) (x : Parsing α) (r : Reader α) : Prop :=
  ∀ pos ≤ b.length, Outcome b (r ⟨b.drop pos, pos⟩) (x.run.run pos)

variable {b : Bytes}

theorem Follows.pure (x : α) : Follows b (Pure.pure x : Parsing α) (Pure.pure x) :=
  fun _ hpos => .ended hpos

theorem Follows.throw (offset : Nat) (fault : ClassFault) :
    Follows b (throw ⟨offset, fault⟩ : Parsing α) (Reader.failAt offset fault) :=
  fun _ _ => .failed

theorem Follows.bind_of_ok {x : Parsing α} {r : Reader α} {k : α → Parsing β} {m : α → Reader β}
    (hx : Follows b x r) (hk : ∀ a c c', r c = .ok (a, c') → Follows b (k a) (m a)) :
    Follows b (x >>= k) (r >>= m) := by
  intro pos hpos
  have hrun : (r >>= m) ⟨b.drop pos, pos⟩ = (r ⟨b.drop pos, pos⟩).bind fun p => m p.1 p.2 := rfl
  have hout := hx pos hpos
  rw [hrun, run_bind]
  generalize x.run.run pos = run at hout ⊢
  cases hr : r ⟨b.drop pos, pos⟩ with
  | error e =>
    rw [hr] at hout
    cases hout with
    | failed => exact .failed
  | ok p =>
    rw [hr] at hout
    cases hout with
    | @ended a pos' hpos' => exact hk a _ _ hr pos' hpos'

theorem Follows.bind {x : Parsing α} {r : Reader α} {k : α → Parsing β} {m : α → Reader β}
    (hx : Follows b x r) (hk : ∀ a, Follows b (k a) (m a)) : Follows b (x >>= k) (r >>= m) :=
  hx.bind_of_ok fun a _ _ _ => hk a

theorem Follows.position : Follows b (get : Parsing Nat) Reader.offset :=
  fun _ hpos => .ended hpos

/-! ## Fields -/

theorem run_remaining {pos : Nat} (hpos : pos ≤ b.length) :
    (remaining b).run.run pos = .ok (.ok (b.length - pos), pos) := by
  have hrun : (remaining b).run.run pos =
      (liftM (sub b.length pos) : Parsing Nat).run.run pos := rfl
  rw [hrun, sub_eq hpos]
  rfl

/-- A field is there if enough bytes are left. -/
theorem run_bytes_bind (hb : b.length < lengthBound) (what : String) (n : Nat) (k : Bytes → Parsing α) {pos : Nat}
    (hpos : pos ≤ b.length) :
    (bytes b what n >>= k).run.run pos =
      if b.length - pos < n then .ok (.error ⟨pos, .truncated what n (b.length - pos)⟩, pos)
      else (k ((b.drop pos).take n)).run.run (pos + n) := by
  have hword := wordBound_eq
  have hbound := lengthBound_eq
  have hstart : (bytes b what n).run.run pos =
      (if b.length - pos < n then throw ⟨pos, .truncated what n (b.length - pos)⟩
        else do
          let stop ← add pos n
          let field ← slice b pos stop
          skip n
          return field : Parsing Bytes).run.run pos := by
    rw [bytes, run_bind, run_remaining hpos]
    rfl
  rw [run_bind, hstart]
  by_cases hshort : b.length - pos < n
  · rw [if_pos hshort, if_pos hshort]
    rfl
  · have hstop : add pos n = .ok (pos + n) := add_eq (by omega)
    have hfield := slice_eq (b := b) (Nat.le_add_right pos n) (by omega)
    rw [if_neg hshort, if_neg hshort, hstop, lift_checked_bind, hfield, Nat.add_sub_cancel_left,
      lift_checked_bind, run_bind, run_skip (by omega)]
    rfl

theorem Follows.bytes (hb : b.length < lengthBound) (what : String) (n : Nat) :
    Follows b (bytes b what n) (Reader.bytes what n) := by
  intro pos hpos
  have hrun := run_bytes_bind hb what n (Pure.pure : Bytes → Parsing Bytes) hpos
  rw [bind_pure] at hrun
  rw [hrun, Reader.bytes, Bytes.takeExact?_eq]
  by_cases hle : n ≤ (b.drop pos).length
  · have hlength := hle
    rw [List.length_drop] at hlength
    rw [if_pos hle, if_neg (Nat.not_lt.mpr hlength)]
    dsimp only
    rw [List.drop_drop]
    exact .ended (by omega)
  · have hlength := hle
    rw [List.length_drop] at hlength
    rw [if_neg hle, if_pos (Nat.not_le.mp hlength), ← List.length_drop]
    exact .failed

/-- A field of fixed length that the parser puts together from its bytes. -/
theorem Follows.field (hb : b.length < lengthBound) {what : String} {n : Nat} {k : Bytes → Parsing α}
    {r : Reader α}
    (hshort : ∀ c : Cursor, c.rest.length < n → r c = Reader.truncated what n c)
    (hlong : ∀ field rest offset, field.length = n →
      ∃ a, k field = Pure.pure a ∧ r ⟨field ++ rest, offset⟩ = .ok (a, ⟨rest, offset + n⟩)) :
    Follows b (Parser.bytes b what n >>= k) r := by
  intro pos hpos
  have hlength : (b.drop pos).length = b.length - pos := List.length_drop
  rw [run_bytes_bind hb what n k hpos]
  by_cases h : b.length - pos < n
  · rw [if_pos h, hshort _ (hlength ▸ h), ← hlength]
    exact .failed
  · have hfield : ((b.drop pos).take n).length = n := by
      rw [List.length_take]
      omega
    obtain ⟨a, hk, hr⟩ := hlong _ (b.drop (pos + n)) pos hfield
    rw [← List.drop_drop, List.take_append_drop, List.drop_drop] at hr
    rw [if_neg h, hk, hr]
    exact .ended (by omega)

theorem Follows.u8 (hb : b.length < lengthBound) (what : String) : Follows b (u8 b what) (Reader.u8 what) := by
  refine .field hb (fun c h => ?_) fun field rest offset h => ?_
  · unfold Reader.u8
    split
    · next hs =>
      rw [hs, List.length_cons] at h
      omega
    · rfl
  · obtain ⟨a, rfl⟩ := List.length_eq_one_iff.mp h
    exact ⟨a, rfl, rfl⟩

theorem Follows.u16 (hb : b.length < lengthBound) (what : String) : Follows b (u16 b what) (Reader.u16 what) := by
  refine .field hb (fun c h => ?_) fun field rest offset h => ?_
  · unfold Reader.u16
    split
    · next hs =>
      rw [hs] at h
      simp only [List.length_cons] at h
      omega
    · rfl
  · obtain ⟨hi, lo, rfl⟩ := List.length_eq_two.mp h
    exact ⟨_, rfl, rfl⟩

theorem exists_four {field : Bytes} {n : Nat} (h : field.length = n + 4) :
    ∃ b₀ b₁ b₂ b₃ rest, field = b₀ :: b₁ :: b₂ :: b₃ :: rest ∧ rest.length = n := by
  rcases field with _ | ⟨b₀, _ | ⟨b₁, _ | ⟨b₂, _ | ⟨b₃, rest⟩⟩⟩⟩
  case cons.cons.cons.cons => exact ⟨b₀, b₁, b₂, b₃, rest, rfl, by simpa using h⟩
  all_goals
    simp only [List.length_cons, List.length_nil] at h
    omega

theorem Follows.u32 (hb : b.length < lengthBound) (what : String) : Follows b (u32 b what) (Reader.u32 what) := by
  refine .field hb (fun c h => ?_) fun field rest offset h => ?_
  · unfold Reader.u32
    split
    · next hs =>
      rw [hs] at h
      simp only [List.length_cons] at h
      omega
    · rfl
  · obtain ⟨b₀, b₁, b₂, b₃, none, rfl, hnone⟩ := exists_four (n := 0) h
    obtain rfl := List.eq_nil_of_length_eq_zero hnone
    exact ⟨_, rfl, rfl⟩

theorem Follows.u64 (hb : b.length < lengthBound) (what : String) : Follows b (u64 b what) (Reader.u64 what) := by
  refine .field hb (fun c h => ?_) fun field rest offset h => ?_
  · unfold Reader.u64
    split
    · next hs =>
      rw [hs] at h
      simp only [List.length_cons] at h
      omega
    · rfl
  · obtain ⟨b₀, b₁, b₂, b₃, low, rfl, hlow⟩ := exists_four (n := 4) h
    obtain ⟨b₄, b₅, b₆, b₇, none, rfl, hnone⟩ := exists_four (n := 0) hlow
    obtain rfl := List.eq_nil_of_length_eq_zero hnone
    exact ⟨_, rfl, rfl⟩

/-! ## Lists -/

theorem Follows.timesFrom {x : Parsing α} {r : Reader α} (h : Follows b x r) (xs : List α) (n : Nat) :
    Follows b (timesFrom x xs n) (Reader.timesFrom r xs n) := by
  induction n generalizing xs with
  | zero => exact .pure _
  | succ n ih =>
    rw [Reader.timesFrom_succ]
    exact h.bind fun a => ih (a :: xs)

theorem Follows.times {x : Parsing α} {r : Reader α} (h : Follows b x r) (n : UInt16) :
    Follows b (times n.toNat x) (Reader.times n.toNat r) := by
  have hbound := lengthBound_eq
  have hlt := n.toNat_lt
  have hroom : allocate (elementSize * n.toNat) = .ok () := allocate_eq (by rw [elementSize]; omega)
  rw [Parser.times, hroom, lift_checked_bind]
  exact h.timesFrom [] n.toNat

/-! ## Constants -/

theorem Follows.readOne (hb : b.length < lengthBound) (make : Index → Constant) :
    Follows b (readOne b make) (Constant.readOne make) :=
  (Follows.u16 hb "constant").bind fun i => .pure (make i)

theorem Follows.readTwo (hb : b.length < lengthBound) (make : Index → Index → Constant) :
    Follows b (readTwo b make) (Constant.readTwo make) :=
  (Follows.u16 hb "constant").bind fun i => (Follows.u16 hb "constant").bind fun j => .pure (make i j)

theorem Follows.readBody (hb : b.length < lengthBound) (start : Nat) (tag : UInt8) :
    Follows b (readBody b start tag) (Constant.readBody start tag) := by
  unfold Parser.readBody Constant.readBody
  generalize tag.toNat = n
  split
  · exact (Follows.u16 hb _).bind fun _ => (Follows.bytes hb _ _).bind fun _ => .pure _
  · exact (Follows.u32 hb _).bind fun _ => .pure _
  · exact (Follows.u32 hb _).bind fun _ => .pure _
  · exact (Follows.u64 hb _).bind fun _ => .pure _
  · exact (Follows.u64 hb _).bind fun _ => .pure _
  · exact .readOne hb _
  · exact .readOne hb _
  · exact .readTwo hb _
  · exact .readTwo hb _
  · exact .readTwo hb _
  · exact .readTwo hb _
  · exact (Follows.u8 hb _).bind fun _ => .readOne hb _
  · exact .readOne hb _
  · exact .readTwo hb _
  · exact .readTwo hb _
  · exact .readOne hb _
  · exact .readOne hb _
  · -- The tag is none of those that are listed, so the reader's own list falls through as well.
    try split
    all_goals first | contradiction | exact .throw _ _

theorem Follows.readConstant (hb : b.length < lengthBound) : Follows b (readConstant b) Constant.read :=
  Follows.position.bind fun start => (Follows.u8 hb _).bind fun tag => .readBody hb start tag

/-! ## Pools -/

/-- The loop fills the slots that are left, two at a time where a constant is wide, and comes to an end. -/
theorem Follows.slotsFrom (hb : b.length < lengthBound) {count left steps : Nat} {slots : Array (Option Constant)}
    (hleft : slots.size + left = count) (hsteps : left < steps) :
    Follows b (slotsFrom b count steps slots) (ConstantPool.readSlots left false slots) := by
  induction steps generalizing left slots with
  | zero => exact absurd hsteps (Nat.not_lt_zero _)
  | succ steps ih =>
    rw [Parser.slotsFrom]
    cases left with
    | zero =>
      rw [if_neg (by omega)]
      exact .pure slots
    | succ left =>
      rw [if_pos (by omega), ConstantPool.readSlots_succ]
      refine Follows.position.bind fun start => (Follows.readConstant hb).bind fun k => ?_
      have hpush : (slots.push (some k)).size = slots.size + 1 := Array.size_push _
      cases k.isWide with
      | false =>
        simp only [Bool.false_and, Bool.false_eq_true, if_false]
        exact ih (by omega) (by omega)
      | true =>
        -- The empty slot behind a wide constant is pushed here, and by the reader at its next step.
        cases left with
        | zero =>
          have hfull : count ≤ (slots.push (some k)).size := by omega
          simp only [hfull, if_true]
          exact .throw _ _
        | succ left =>
          have hroom : ¬ count ≤ (slots.push (some k)).size := by omega
          have hpush' : ((slots.push (some k)).push none).size = slots.size + 1 + 1 := by
            rw [Array.size_push, hpush]
          simp only [hroom, if_true, if_false, Bool.true_and, Nat.add_one_ne_zero, beq_iff_eq,
            ConstantPool.readSlots]
          exact ih (by omega) (by omega)

theorem Follows.readPool (hb : b.length < lengthBound) : Follows b (readPool b) ConstantPool.read := by
  have hbound := lengthBound_eq
  refine (Follows.u16 hb _).bind fun count => ?_
  by_cases hzero : count = 0
  · simp only [hzero, if_true]
    exact Follows.position.bind fun _ => .throw _ _
  have hlt := count.toNat_lt
  have hroom : allocate (elementSize * count.toNat) = .ok () := allocate_eq (by rw [elementSize]; omega)
  simp only [hzero, if_false, hroom, lift_checked_bind]
  have hpos : 0 < count.toNat := Nat.pos_of_ne_zero fun h => hzero (UInt16.toNat_inj.mp h)
  refine Follows.bind (.slotsFrom hb ?_ (by omega)) fun _ => .pure _
  show 1 + (count.toNat - 1) = count.toNat
  omega

/-! ## Attributes and members -/

theorem Follows.readAttribute (hb : b.length < lengthBound) : Follows b (readAttribute b) Attribute.read :=
  (Follows.u16 hb _).bind fun _ => (Follows.u32 hb _).bind fun _ =>
    (Follows.bytes hb _ _).bind fun _ => .pure _

theorem Follows.readAttributes (hb : b.length < lengthBound) : Follows b (readAttributes b) Attribute.readList :=
  (Follows.u16 hb _).bind fun count => (Follows.readAttribute hb).times count

theorem Follows.readMember (hb : b.length < lengthBound) (what : String) :
    Follows b (readMember b what) (Member.read what) :=
  (Follows.u16 hb _).bind fun _ => (Follows.u16 hb _).bind fun _ =>
    (Follows.u16 hb _).bind fun _ => (Follows.readAttributes hb).bind fun _ => .pure _

theorem Follows.readMembers (hb : b.length < lengthBound) (what : String) :
    Follows b (readMembers b what) (Member.readList what) :=
  (Follows.u16 hb _).bind fun count => (Follows.readMember hb what).times count

/-! ## Names -/

variable {p : ConstantPool}

theorem length_of_textBytes? (hp : p.WellFormed) {i : Index} {text : Bytes} (h : p.textBytes? i = some text) :
    elementSize * text.length < lengthBound := by
  have hbound := lengthBound_eq
  have hle := hp.length_le h
  rw [elementSize]
  omega

theorem lossyText?_eq (hp : p.WellFormed) (i : Index) : lossyText? p i = .ok (p.lossyText? i) := by
  unfold lossyText? ConstantPool.lossyText?
  cases h : p.textBytes? i with
  | none => rfl
  | some text =>
    dsimp only
    rw [decodeLossy_eq (length_of_textBytes? hp h)]
    rfl

theorem className?_eq (hp : p.WellFormed) (i : Index) : className? p i = .ok (p.className? i) := by
  unfold className? ConstantPool.className?
  cases p.get? i with
  | none => rfl
  | some k =>
    cases k with
    | classRef name => exact lossyText?_eq hp name
    | _ => rfl

/-! ## Whole classes -/

theorem Follows.checkLabel (c : ClassFile) (start : Nat) :
    Follows b (checkLabel c start) (match c.labelAttribute? with
      | none => return c
      | some a =>
        if a.payload.length = 2 then return c
        else Reader.failAt start (.labelLength a.payload.length)) := by
  unfold Parser.checkLabel
  cases c.labelAttribute? with
  | none => exact .pure c
  | some a =>
    by_cases h : a.payload.length = 2
    · simp only [h, if_true]
      exact .pure c
    · simp only [h, if_false]
      exact .throw _ _

/-- What stands behind the class is counted by the parser and looked at by the reader. -/
theorem Follows.checkEnd {k : Parsing α} {m : Cursor → Reader α}
    (hrest : ∀ c : Cursor, c.rest ≠ [] → m c c = .error ⟨c.offset, .trailing c.rest.length⟩)
    (hnil : ∀ c : Cursor, c.rest = [] → Follows b k (m c)) :
    Follows b (checkEnd b >>= fun _ => k) (get >>= m) := by
  intro pos hpos
  have hlength : (b.drop pos).length = b.length - pos := List.length_drop
  have hget : (get >>= m) ⟨b.drop pos, pos⟩ = m ⟨b.drop pos, pos⟩ ⟨b.drop pos, pos⟩ := rfl
  have hrun : (Parser.checkEnd b).run.run pos = .ok (if b.length - pos ≠ 0
      then .error ⟨pos, .trailing (b.length - pos)⟩ else .ok (), pos) := by
    rw [Parser.checkEnd, run_bind, run_remaining hpos]
    dsimp only [Except.bind]
    split <;> rfl
  rw [hget, run_bind, hrun]
  by_cases h : b.drop pos = []
  · have hleft : b.length - pos = 0 := by rw [← hlength, h, List.length_nil]
    simp only [hleft, ne_eq, not_true_eq_false, if_false]
    exact hnil _ h pos hpos
  · have hleft : b.length - pos ≠ 0 := by
      rw [← hlength]
      exact fun h' => h (List.eq_nil_of_length_eq_zero h')
    rw [hrest _ h, if_pos hleft, ← hlength]
    exact .failed

theorem Follows.readClass (hb : b.length < lengthBound) : Follows b (readClass b) ClassFile.read := by
  refine (Follows.u32 hb _).bind fun sign => ?_
  by_cases hsign : sign ≠ magic
  · rw [if_pos hsign, if_pos hsign]
    exact fun _ _ => .failed
  rw [if_neg hsign, if_neg hsign]
  refine (Follows.u16 hb _).bind fun minor => (Follows.u16 hb _).bind fun major =>
    (Follows.readPool hb).bind_of_ok fun pool c c' hpool => (Follows.u16 hb _).bind fun access =>
    Follows.position.bind fun thisAt => (Follows.u16 hb _).bind fun thisClass =>
    (Follows.u16 hb _).bind fun superClass => ?_
  have hwell : pool.WellFormed := ((ConstantPool.reads _ _ _).mp hpool).1
  rw [className?_eq hwell, lift_checked_bind]
  cases pool.className? thisClass with
  | none => exact .throw _ _
  | some name =>
    refine (Follows.u16 hb _).bind fun count => ((Follows.u16 hb _).times count).bind fun interfaces =>
      (Follows.readMembers hb _).bind fun fields => (Follows.readMembers hb _).bind fun methods =>
      Follows.position.bind fun start => (Follows.readAttributes hb).bind fun attributes =>
      .checkEnd (fun c hc => ?_) fun c hc => ?_
    · simp only [hc, ne_eq, not_false_eq_true, if_true]
      rfl
    · simp only [hc, ne_eq, not_true_eq_false, if_false]
      exact .checkLabel _ start

/-- The machine parses what the definition parses, or fails as it does. -/
theorem parse_eq (hb : b.length < lengthBound) : parse b = answer (ClassFile.parse b) := by
  have hout := Follows.readClass hb 0 (Nat.zero_le _)
  rw [List.drop_zero] at hout
  unfold parse ClassFile.parse
  generalize (Parser.readClass b).run.run 0 = run at hout ⊢
  cases hread : ClassFile.read ⟨b, 0⟩ with
  | error e =>
    rw [hread] at hout
    cases hout with
    | failed => rfl
  | ok r =>
    rw [hread] at hout
    cases hout with
    | ended => rfl

/-! ## Questions about a class -/

/-- What can be asked of a class that was read, beside its fields and the constants of its pool as they are. -/
inductive Question where
  | superName
  | labelIndex
  | label
  | text (i : Index)
  | lossyText (i : Index)
  | className (i : Index)
deriving DecidableEq, Repr

inductive Value where
  | text (s : Option String)
  | index (i : Option Index)
deriving DecidableEq, Repr

def Question.run (c : ClassFile) : Question → Checked Value
  | .superName => .text <$> className? c.pool c.superClass
  | .labelIndex => .index <$> labelIndex? c
  | .label => .text <$> label? c
  | .text i => .text <$> text? c.pool i
  | .lossyText i => .text <$> lossyText? c.pool i
  | .className i => .text <$> className? c.pool i

def Question.value (c : ClassFile) : Question → Value
  | .superName => .text c.superName?
  | .labelIndex => .index (c.labelAttribute?.bind Attribute.index?)
  | .label => .text c.label?
  | .text i => .text (c.pool.text? i)
  | .lossyText i => .text (c.pool.lossyText? i)
  | .className i => .text (c.pool.className? i)

variable {c : ClassFile}

theorem text?_eq (hp : p.WellFormed) (i : Index) : text? p i = .ok (p.text? i) := by
  unfold text? ConstantPool.text?
  cases h : p.textBytes? i with
  | none => rfl
  | some text =>
    dsimp only
    rw [decode_eq (length_of_textBytes? hp h)]
    rfl

theorem labelIndex?_eq (hc : c.WellFormed) : labelIndex? c = .ok (c.labelAttribute?.bind Attribute.index?) := by
  unfold labelIndex?
  cases h : c.labelAttribute? with
  | none => rfl
  | some a =>
    obtain ⟨hi, lo, hpayload⟩ := List.length_eq_two.mp (hc.label a h)
    simp only [hpayload, Option.bind_some, Attribute.index?]
    rfl

theorem label?_eq (hc : c.WellFormed) : label? c = .ok c.label? := by
  have hlabel : c.label? = (c.labelAttribute?.bind Attribute.index?).bind c.pool.text? := by
    unfold ClassFile.label? labelIndex
    cases c.labelAttribute? with
    | none => rfl
    | some a =>
      obtain ⟨name, payload⟩ := a
      rcases payload with _ | ⟨hi, _ | ⟨lo, rest⟩⟩ <;> rfl
  rw [label?, labelIndex?_eq hc, ok_bind, hlabel]
  cases c.labelAttribute?.bind Attribute.index? with
  | none => rfl
  | some i => exact text?_eq hc.pool i

theorem Question.run_eq (hc : c.WellFormed) (q : Question) : q.run c = .ok (q.value c) := by
  cases q <;>
    simp only [run, value, ClassFile.superName?, className?_eq hc.pool, text?_eq hc.pool, lossyText?_eq hc.pool,
      labelIndex?_eq hc, label?_eq hc] <;> rfl

end SourceLabel.Machine.Parser
