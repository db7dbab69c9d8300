import SourceLabel.Proofs.Relabel.Rebuild
import SourceLabel.Proofs.Zip.Written

/-!
# Rebuilding, call by call

What is added to an archive for an entry does not depend on the archive. So each entry of a container stands
for one call on a writer, and a container is rebuilt by the calls of its entries, in their order.
-/
namespace SourceLabel.Relabel

open Walk Tree Result Zip

theorem accepted_eq_ok {r : Except Error Unit × Writer} {w : Writer} : accepted r = .ok w ↔ r = (.ok (), w) := by
  obtain ⟨x, v⟩ := r
  cases x with
  | error e => simp [accepted]
  | ok u => simp [accepted]

/-- The call by which an entry is added to an archive. -/
def call (policy : Policy) (level : Deflate.Level) : Tree → Except Error Call
  | .broken e => .error e
  | .leaf l =>
    match l.payload with
    | .plain _ => .error (.invalidFormat (.noHeader l.path.toString))
    | .packed header raw => do
      match ← replacement policy l with
      | none => return .copy header raw
      | some data => return .add header data
  | .container c entries => do
    let inner ← addAll policy level { level, comment := c.comment } entries
    let done ← inner.finish
    match c.header? with
    | none => throw (.invalidFormat (.noHeader c.path.toString))
    | some header => return .add header done.bytes

variable {policy : Policy} {level : Deflate.Level}

theorem call_leaf {l : Leaf} {header : Entry} {raw : Bytes} (hl : l.payload = .packed header raw) :
    call policy level (.leaf l) = (replacement policy l).map fun data? => data?.elim (.copy header raw) (.add header) := by
  unfold call
  simp only [hl]
  cases replacement policy l with
  | error e => rfl
  | ok data? => cases data? <;> rfl

theorem call_container_eq_ok {o : Opened} {header : Entry} (hh : o.header? = some header) {ts : List Tree} {c : Call} :
    call policy level (.container o ts) = .ok c ↔
      ∃ w done, addAll policy level { level, comment := o.comment } ts = .ok w ∧ w.finish = .ok done ∧
        .add header done.bytes = c := by
  simp only [call, hh]
  constructor
  · intro h
    obtain ⟨w, hw, h⟩ := bind_eq_ok.mp h
    obtain ⟨done, hfinish, h⟩ := bind_eq_ok.mp h
    exact ⟨w, done, hw, hfinish, Except.ok.inj h⟩
  · rintro ⟨w, done, hw, hfinish, rfl⟩
    simp only [bind, Except.bind, hw, hfinish]
    rfl

theorem addTree_eq (w : Writer) (t : Tree) :
    addTree policy level w t = call policy level t >>= fun c => accepted (c.perform w) := by
  cases t with
  | broken e => rfl
  | leaf l =>
    cases hl : l.payload with
    | plain data => simp only [addTree, call, hl, bind, Except.bind]
    | packed header raw =>
      simp only [addTree, call, hl, bind, Except.bind]
      cases replacement policy l with
      | error e => rfl
      | ok data? =>
        cases data? with
        | none => rfl
        | some data => rfl
  | container c entries =>
    simp only [addTree, call, bind, Except.bind]
    cases addAll policy level { level, comment := c.comment } entries with
    | error e => rfl
    | ok inner =>
      dsimp only
      cases inner.finish with
      | error e => rfl
      | ok done =>
        dsimp only
        cases c.header? with
        | none => rfl
        | some header => rfl

theorem addTree_eq_ok {w w' : Writer} {t : Tree} :
    addTree policy level w t = .ok w' ↔
      ∃ c, call policy level t = .ok c ∧ c.perform w = (.ok (), w') := by
  rw [addTree_eq, bind_eq_ok]
  simp only [accepted_eq_ok]

theorem addAll_eq_ok {w w' : Writer} {ts : List Tree} :
    addAll policy level w ts = .ok w' ↔
      ∃ calls, List.Forall₂ (fun t c => call policy level t = .ok c) ts calls ∧ Taken w calls w' := by
  induction ts generalizing w with
  | nil =>
    constructor
    · intro h
      obtain rfl := Except.ok.inj h
      exact ⟨[], .nil, .none w⟩
    · rintro ⟨calls, hcalls, htaken⟩
      cases hcalls
      cases htaken
      rfl
  | cons t ts ih =>
    rw [addAll, bind_eq_ok]
    constructor
    · rintro ⟨v, hv, hw⟩
      obtain ⟨c, hc, hp⟩ := addTree_eq_ok.mp hv
      obtain ⟨calls, hcalls, htaken⟩ := ih.mp hw
      exact ⟨c :: calls, .cons hc hcalls, .step hp htaken⟩
    · rintro ⟨calls, hcalls, htaken⟩
      cases hcalls with
      | cons hc hcalls =>
        cases htaken with
        | step hp htaken => exact ⟨_, addTree_eq_ok.mpr ⟨_, hc, hp⟩, ih.mpr ⟨_, hcalls, htaken⟩⟩

theorem comment_of_addAll {comment : Bytes} {w : Writer} {ts : List Tree}
    (h : addAll policy level { level, comment } ts = .ok w) : w.comment = comment := by
  obtain ⟨calls, -, htaken⟩ := addAll_eq_ok.mp h
  exact (htaken.holds (Writer.holds_nil level comment)).2.2

/-! ## Whole files -/

theorem rebuild_leaf {l : Leaf} {data : Bytes} (hl : l.payload = .plain data) :
    rebuild policy level (.leaf l) = (replacement policy l).map (·.getD data) := by
  unfold rebuild
  simp only [hl]
  cases replacement policy l <;> rfl

theorem rebuild_container_eq_ok {o : Opened} {ts : List Tree} {bytes : Bytes} :
    rebuild policy level (.container o ts) = .ok bytes ↔
      ∃ w done, addAll policy level { level, comment := o.comment } ts = .ok w ∧ w.finish = .ok done ∧
        done.bytes = bytes := by
  simp only [rebuild]
  constructor
  · intro h
    obtain ⟨w, hw, h⟩ := bind_eq_ok.mp h
    obtain ⟨done, hfinish, h⟩ := bind_eq_ok.mp h
    exact ⟨w, done, hw, hfinish, Except.ok.inj h⟩
  · rintro ⟨w, done, hw, hfinish, rfl⟩
    simp only [bind, Except.bind, hw, hfinish]
    rfl

end SourceLabel.Relabel
