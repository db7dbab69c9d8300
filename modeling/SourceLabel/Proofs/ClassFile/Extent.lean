import SourceLabel.Proofs.ClassFile.Format

/-!
# Where class files end

A class file says by itself where it ends. Readers take the same bytes whatever follows these, so a class that could
be read is read from longer bytes as well, up to the check that nothing is left; and then that check fails. So no
class file begins with another one, and a class file that was cut off is refused like any other bytes. All readers
stay within the bytes that they were given, and no failure is placed behind the end of these.
-/
namespace SourceLabel

namespace ClassFile

/-! ## Within the bytes -/

def Cursor.stop (c : Cursor) : Nat := c.offset + c.rest.length

theorem Cursor.Took.stop_eq {c c' : Cursor} {b : Bytes} (h : c.Took b c') : c'.stop = c.stop := by
  rw [stop, stop, h.1, h.2, List.length_append, Nat.add_assoc]

variable {α β : Type} {stop : Nat}

namespace Reader

/-- Of bytes that end at `stop`, the reader leaves some that end there, or it fails no further behind. -/
structure Inside (stop : Nat) (r : Reader α) : Prop where
  ok : ∀ {c x c'}, c.stop = stop → r c = .ok (x, c') → c'.stop = stop
  error : ∀ {c e}, c.stop = stop → r c = .error e → e.offset ≤ stop

theorem Inside.pure (x : α) : Inside stop (Pure.pure x : Reader α) where
  ok hc h := (pure_eq_ok.mp h).2 ▸ hc
  error _ h := nomatch h

theorem Inside.bind {r : Reader α} {k : α → Reader β} (hr : Inside stop r) (hk : ∀ x, Inside stop (k x)) :
    Inside stop (r >>= k) where
  ok hc h := by
    obtain ⟨x, c', hx, hy⟩ := bind_eq_ok.mp h
    exact (hk x).ok (hr.ok hc hx) hy
  error hc h := by
    rcases bind_eq_error.mp h with hx | ⟨x, c', hx, hy⟩
    · exact hr.error hc hx
    · exact (hk x).error (hr.ok hc hx) hy

theorem Inside.failAt {offset : Nat} (h : offset ≤ stop) (fault : ClassFault) :
    Inside stop (Reader.failAt offset fault : Reader α) where
  ok _ h := nomatch h
  error _ he := by
    obtain rfl := Except.error.inj he
    exact h

theorem Inside.failAt_bind {offset : Nat} (h : offset ≤ stop) (fault : ClassFault) (k : α → Reader β) :
    Inside stop (Reader.failAt offset fault >>= k) := by
  have hfail : (Reader.failAt offset fault >>= k) = Reader.failAt offset fault := rfl
  rw [hfail]
  exact .failAt h fault

theorem Inside.get_bind {k : Cursor → Reader β} (hk : ∀ c : Cursor, c.stop = stop → Inside stop (k c)) :
    Inside stop (get >>= k) where
  ok {c _ _} hc h := (hk c hc).ok hc h
  error {c _} hc h := (hk c hc).error hc h

theorem Inside.offset_bind {k : Nat → Reader β} (hk : ∀ n ≤ stop, Inside stop (k n)) : Inside stop (offset >>= k) where
  ok {c _ _} hc h := (hk c.offset (hc ▸ Nat.le_add_right _ _)).ok hc h
  error {c _} hc h := (hk c.offset (hc ▸ Nat.le_add_right _ _)).error hc h

/-! ## Readers -/

theorem Inside.field {r : Reader α} (hok : ∀ c x c', r c = .ok (x, c') → ∃ b, c.Took b c')
    (herror : ∀ c e, r c = .error e → e.offset = c.offset) : Inside stop r where
  ok hc h := by
    obtain ⟨b, htook⟩ := hok _ _ _ h
    exact htook.stop_eq.trans hc
  error {c e} hc h := by
    rw [herror c e h, ← hc]
    exact Nat.le_add_right _ _

theorem offset_of_truncated {what : String} {need : Nat} {c : Cursor} {e : ClassError}
    (h : (truncated what need c : Except ClassError α) = .error e) : e.offset = c.offset := by
  obtain rfl := Except.error.inj h
  rfl

theorem Inside.bytes (what : String) (n : Nat) : Inside stop (bytes what n) := by
  refine .field (fun c b c' h => ⟨b, (bytes_eq_ok.mp h).2⟩) fun c e h => ?_
  unfold Reader.bytes at h
  split at h
  · exact nomatch h
  · exact offset_of_truncated h

theorem Inside.u8 (what : String) : Inside stop (u8 what) := by
  refine .field (fun c x c' h => ⟨_, u8_eq_ok.mp h⟩) fun c e h => ?_
  unfold Reader.u8 at h
  split at h
  · exact nomatch h
  · exact offset_of_truncated h

theorem Inside.u16 (what : String) : Inside stop (u16 what) := by
  refine .field (fun c x c' h => ⟨_, u16_eq_ok.mp h⟩) fun c e h => ?_
  unfold Reader.u16 at h
  split at h
  · exact nomatch h
  · exact offset_of_truncated h

theorem Inside.u32 (what : String) : Inside stop (u32 what) := by
  refine .field (fun c x c' h => ⟨_, u32_eq_ok.mp h⟩) fun c e h => ?_
  unfold Reader.u32 at h
  split at h
  · exact nomatch h
  · exact offset_of_truncated h

theorem Inside.u64 (what : String) : Inside stop (u64 what) := by
  refine .field (fun c x c' h => ⟨_, u64_eq_ok.mp h⟩) fun c e h => ?_
  unfold Reader.u64 at h
  split at h
  · exact nomatch h
  · exact offset_of_truncated h

theorem Inside.timesFrom {read : Reader α} (h : Inside stop read) (acc : List α) (n : Nat) :
    Inside stop (timesFrom read acc n) := by
  induction n generalizing acc with
  | zero => exact .pure acc.reverse
  | succ n ih =>
    rw [timesFrom_succ]
    exact h.bind fun x => ih (x :: acc)

theorem Inside.times {read : Reader α} (h : Inside stop read) (n : Nat) : Inside stop (times n read) :=
  h.timesFrom [] n

end Reader

open Reader

theorem Constant.inside_readOne (make : Index → Constant) : Inside stop (readOne make) :=
  .bind (.u16 _) fun _ => .pure _

theorem Constant.inside_readTwo (make : Index → Index → Constant) : Inside stop (readTwo make) :=
  .bind (.u16 _) fun _ => .bind (.u16 _) fun _ => .pure _

theorem Constant.inside_readBody {start : Nat} (h : start ≤ stop) (tag : UInt8) : Inside stop (readBody start tag) := by
  fun_cases readBody start tag
  case case1 => exact .bind (.u16 _) fun _ => .bind (.bytes _ _) fun _ => .pure _
  case case2 | case3 => exact .bind (.u32 _) fun _ => .pure _
  case case4 | case5 => exact .bind (.u64 _) fun _ => .pure _
  case case6 | case7 | case13 | case16 | case17 => exact inside_readOne _
  case case8 | case9 | case10 | case11 | case14 | case15 => exact inside_readTwo _
  case case12 => exact .bind (.u8 _) fun _ => inside_readOne _
  case case18 => exact .failAt h _

theorem Constant.inside_read : Inside stop Constant.read :=
  .offset_bind fun _ hstart => .bind (.u8 _) fun tag => inside_readBody hstart tag

theorem ConstantPool.inside_readSlots (left : Nat) (blank : Bool) (slots : Array (Option Constant)) :
    Inside stop (readSlots left blank slots) := by
  induction left generalizing blank slots with
  | zero =>
    have hdone : readSlots 0 blank slots = Pure.pure slots := by cases blank <;> rfl
    exact hdone ▸ .pure slots
  | succ left ih =>
    cases blank with
    | true => exact ih false (slots.push none)
    | false =>
      rw [readSlots_succ]
      refine .offset_bind fun start hstart => .bind Constant.inside_read fun k => ?_
      split
      · exact .failAt hstart _
      · exact ih _ _

theorem ConstantPool.inside_read : Inside stop ConstantPool.read := by
  refine .bind (.u16 _) fun count => ?_
  split
  · exact .offset_bind fun n hn => .failAt hn _
  · exact .bind (inside_readSlots _ _ _) fun _ => .pure _

theorem Attribute.inside_readList : Inside stop Attribute.readList :=
  have inside_read : Inside stop Attribute.read :=
    .bind (.u16 _) fun _ => .bind (.u32 _) fun _ => .bind (.bytes _ _) fun _ => .pure _
  .bind (.u16 _) fun _ => inside_read.times _

theorem Member.inside_readList (what : String) : Inside stop (Member.readList what) :=
  have inside_read : Inside stop (Member.read what) :=
    .bind (.u16 _) fun _ => .bind (.u16 _) fun _ => .bind (.u16 _) fun _ => .bind Attribute.inside_readList fun _ =>
      .pure _
  .bind (.u16 _) fun _ => inside_read.times _

theorem inside_read : Inside stop ClassFile.read := by
  refine .bind (.u32 _) fun sign => ?_
  split
  · exact .failAt_bind (Nat.zero_le _) _ _
  refine .bind (.u16 _) fun minor => .bind (.u16 _) fun major => .bind ConstantPool.inside_read fun pool =>
    .bind (.u16 _) fun access => .offset_bind fun thisAt hthis => .bind (.u16 _) fun thisClass =>
    .bind (.u16 _) fun superClass => ?_
  split
  case h_2 => exact .failAt hthis _
  refine .bind (.u16 _) fun count => .bind (.times (.u16 _) _) fun interfaces =>
    .bind (Member.inside_readList _) fun fields => .bind (Member.inside_readList _) fun methods =>
    .offset_bind fun attributesAt hattributes => .bind Attribute.inside_readList fun attributes =>
    .get_bind fun c hc => ?_
  have hoffset : c.offset ≤ stop := hc ▸ Nat.le_add_right _ _
  split
  · exact .failAt_bind hoffset _ _
  dsimp only
  split
  · exact .pure _
  · split
    · exact .pure _
    · exact .failAt hattributes _

theorem offset_le_of_parse {b : Bytes} {e : ClassError} (h : parse b = .error e) : e.offset ≤ b.length := by
  unfold parse at h
  cases hr : read ⟨b, 0⟩ with
  | error e' =>
    rw [hr] at h
    obtain rfl := Except.error.inj h
    exact inside_read.error (Nat.zero_add _) hr
  | ok r =>
    rw [hr] at h
    exact nomatch h

/-! ## Cut off and followed -/

theorem parse_append {c : ClassFile} (hw : c.WellFormed) {extra : Bytes} (hextra : extra ≠ []) :
    parse (c.toBytes ++ extra) = .error ⟨c.toBytes.length, .trailing extra.length⟩ := by
  have htook : Cursor.Took ⟨c.toBytes ++ extra, 0⟩ c.toBytes ⟨extra, 0 + c.toBytes.length⟩ := ⟨rfl, rfl⟩
  have hread := read_of_took hw htook
  rw [if_neg hextra, Nat.zero_add] at hread
  rw [parse, hread]
  rfl

/-- Bytes that a class is read from are refused if they are cut off anywhere, within what is left of them, and if
anything follows them, right behind them. Whatever bytes are refused, they are refused within their length. -/
theorem parse_ends (b : Bytes) :
    match parse b with
    | .ok _ =>
      (∀ front cut, b = front ++ cut → cut ≠ [] → ∃ e, parse front = .error e ∧ e.offset ≤ front.length) ∧
      ∀ extra, extra ≠ [] → parse (b ++ extra) = .error ⟨b.length, .trailing extra.length⟩
    | .error e => e.offset ≤ b.length := by
  cases hparse : parse b with
  | error e => exact offset_le_of_parse hparse
  | ok c =>
    obtain ⟨hw, rfl⟩ := parse_eq_ok_iff.mp hparse
    refine ⟨fun front cut hb hcut => ?_, fun extra => parse_append hw⟩
    cases hfront : parse front with
    | error e => exact ⟨e, rfl, offset_le_of_parse hfront⟩
    | ok c' =>
      -- Then the whole bytes would be a class with something behind it.
      obtain ⟨hw', rfl⟩ := parse_eq_ok_iff.mp hfront
      rw [hb, parse_append hw' hcut] at hparse
      exact nomatch hparse

theorem parse_ends_wideBytes :
    (∃ c, parse wideBytes = .ok c) ∧
    (∃ e, parse (wideBytes.take 30) = .error e ∧ e.offset ≤ 30) ∧
    parse (wideBytes ++ [0, 0]) = .error ⟨wideBytes.length, .trailing 2⟩ := by
  have hends := parse_ends wideBytes
  cases hparse : parse wideBytes with
  | error e =>
    have hok : (parse wideBytes).isOk = true := by decide +kernel
    rw [hparse] at hok
    exact nomatch hok
  | ok c =>
    rw [hparse] at hends
    obtain ⟨hcut, hextra⟩ := hends
    exact ⟨⟨c, rfl⟩, hcut (wideBytes.take 30) (wideBytes.drop 30) (List.take_append_drop 30 wideBytes).symm (by decide),
      hextra [0, 0] (List.cons_ne_nil 0 [0])⟩

end ClassFile
end SourceLabel
