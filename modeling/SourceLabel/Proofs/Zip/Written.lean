import SourceLabel.Proofs.Result
import SourceLabel.Proofs.Zip.Finding

/-!
# What a writer holds

The calls that a writer has taken decide what it holds: local headers and payloads one after another, and
the place of each. Every call that is taken adds to this and changes nothing of what is there, and nothing
else changes it.
-/
namespace SourceLabel.Zip

/-- Local headers, each with its payload. -/
def image (items : List (Entry × Bytes)) : Bytes :=
  items.flatMap fun item => item.1.localHeader ++ item.2

@[simp] theorem image_append (front back : List (Entry × Bytes)) : image (front ++ back) = image front ++ image back :=
  List.flatMap_append

@[simp] theorem image_cons (item : Entry × Bytes) (items : List (Entry × Bytes)) :
    image (item :: items) = item.1.localHeader ++ (item.2 ++ image items) := by
  rw [← List.append_assoc]
  rfl

/-- A call on a writer. -/
inductive Call where
  | add (template : Entry) (data : Bytes)
  | copy (header : Entry) (payload : Bytes)
deriving DecidableEq, Repr

namespace Call

def perform (w : Writer) : Call → Except Error Unit × Writer
  | .add template data => w.add template data
  | .copy header payload => w.copy header payload

/-- The header that is handed over. -/
def given : Call → Entry
  | .add template _ => template
  | .copy header _ => header

def payload (level : Deflate.Level) : Call → Bytes
  | .add template data => if template.method = .deflated then Deflate.deflate data level else data
  | .copy _ payload => payload

/-- The header that is written: contents that are packed anew decide about checksum and sizes, and deflated
contents need a reader that knows the method. -/
def header (level : Deflate.Level) : Call → Entry
  | .add template data =>
    { template with
      checksum := Checksum.of data
      size := UInt32.ofNat data.length
      packedSize := UInt32.ofNat (payload level (.add template data)).length
      needed :=
        if template.method = .deflated && template.needed < Entry.version then Entry.version
        else template.needed }
  | .copy header _ => header

/-- What a call must bring for a writer to take it, apart from what fields can hold. -/
structure Sized (level : Deflate.Level) (call : Call) : Prop where
  packedSize : (call.header level).packedSize.toNat = (call.payload level).length
  added : ∀ template data, call = .add template data →
    template.method.isSupported ∧ (call.header level).size.toNat = data.length

end Call

/-- Calls that a writer takes one after another. -/
inductive Taken : Writer → List Call → Writer → Prop
  | none (w : Writer) : Taken w [] w
  | step {u v w : Writer} {call : Call} {calls : List Call} :
      call.perform u = (.ok (), v) → Taken v calls w → Taken u (call :: calls) w

theorem Taken.cons {u w : Writer} {call : Call} {calls : List Call} (h : (call.perform u).1 = .ok ())
    (hrest : Taken (call.perform u).2 calls w) : Taken u (call :: calls) w :=
  .step (Prod.ext h rfl) hrest

namespace Writer

/-- A writer that holds some items: where each of them starts is what the ones before it take up. -/
structure Holds (w : Writer) (items : List (Entry × Bytes)) : Prop where
  sink : w.sink.toList = image items
  size : w.central.size = items.length
  central : ∀ i (h : i < items.length), ∃ offset,
    w.central[i]? = some (items[i].1, offset) ∧ offset.toNat = (image (items.take i)).length
  fits : ∀ item ∈ items, fits item.1 ∧ item.1.packedSize.toNat = item.2.length
  length_le : items.length ≤ maxEntries

theorem holds_nil (level : Deflate.Level) (comment : Bytes) : Holds { level, comment } [] where
  sink := rfl
  size := rfl
  central i h := absurd h (Nat.not_lt_zero i)
  fits _ h := absurd h List.not_mem_nil
  length_le := Nat.zero_le _

theorem place_eq_ok {w : Writer} {e : Entry} {offset : UInt32} (h : w.place e = .ok offset) :
    w.central.size < maxEntries ∧ fit32 w.sink.size = .ok offset ∧ fits e := by
  simp only [place] at h
  split at h
  · exact nomatch h
  · next hsize =>
    obtain ⟨found, hfound, hrest⟩ := Result.bind_eq_ok.mp h
    split at hrest
    · next hfits =>
      rw [Except.ok.inj hrest] at hfound
      exact ⟨Nat.not_le.mp hsize, hfound, hfits⟩
    · exact nomatch hrest

theorem put_eq_ok {u v : Writer} {e : Entry} {payload : Bytes} (h : u.put e payload = (.ok (), v)) :
    ∃ offset, u.place e = .ok offset ∧ v = u.append e offset payload := by
  unfold put at h
  split at h
  · exact nomatch (Prod.mk.inj h).1
  · next offset ho => exact ⟨offset, ho, (Prod.mk.inj h).2.symm⟩

theorem Holds.put {u v : Writer} {items : List (Entry × Bytes)} (hu : u.Holds items) {e : Entry}
    {payload : Bytes} (hp : e.packedSize.toNat = payload.length) (h : u.put e payload = (.ok (), v)) :
    v.Holds (items ++ [(e, payload)]) := by
  obtain ⟨offset, hplace, hv⟩ := put_eq_ok h
  obtain ⟨hroom, hoffset, hfits⟩ := place_eq_ok hplace
  subst hv
  constructor
  · rw [image_append, image_cons, ← hu.sink]
    simp [append, image]
  · simp [append, hu.size]
  · intro i hi
    by_cases hlt : i < items.length
    · obtain ⟨found, hc, ho⟩ := hu.central i hlt
      refine ⟨found, ?_, ?_⟩
      · rw [List.getElem_append_left hlt, ← hc]
        exact (Array.getElem?_push ..).trans (if_neg (hu.size ▸ Nat.ne_of_lt hlt))
      · rw [List.take_append_of_le_length (Nat.le_of_lt hlt)]
        exact ho
    · have hlast : i = items.length := by
        rw [List.length_append, List.length_singleton] at hi
        omega
      subst hlast
      refine ⟨offset, ?_, ?_⟩
      · rw [List.getElem_concat_length rfl, ← hu.size]
        exact Array.getElem?_push_size
      · rw [List.take_left, ← hu.sink, Array.length_toList]
        exact toNat_of_fit32 hoffset
  · intro item hm
    rcases List.mem_append.mp hm with hm | hm
    · exact hu.fits item hm
    · rw [List.mem_singleton.mp hm]
      exact ⟨hfits, hp⟩
  · have hs := hu.size
    rw [List.length_append, List.length_singleton]
    omega

theorem put_level_comment {u v : Writer} {e : Entry} {payload : Bytes} (h : u.put e payload = (.ok (), v)) :
    v.level = u.level ∧ v.comment = u.comment := by
  obtain ⟨offset, -, hv⟩ := put_eq_ok h
  rw [hv]
  exact ⟨rfl, rfl⟩

theorem Holds.congr {v w : Writer} {items : List (Entry × Bytes)} (h : w.Holds items) (hsink : v.sink = w.sink)
    (hcentral : v.central = w.central) : v.Holds items where
  sink := hsink ▸ h.sink
  size := hcentral ▸ h.size
  central := hcentral ▸ h.central
  fits := h.fits
  length_le := h.length_le

theorem pack_eq_ok {method : Method} {data payload : Bytes} {level : Deflate.Level} {name : String}
    (h : method.pack data level name = .ok payload) :
    method.isSupported ∧ payload = if method = .deflated then Deflate.deflate data level else data := by
  unfold Method.pack at h
  split at h
  · next hs =>
    subst hs
    exact ⟨rfl, (Except.ok.inj h).symm⟩
  · split at h
    · next hd =>
      subst hd
      exact ⟨rfl, (Except.ok.inj h).symm⟩
    · exact nomatch h

theorem fit32_eq_ok {n : Nat} {field : UInt32} (h : fit32 n = .ok field) : field = UInt32.ofNat n := by
  unfold fit32 at h
  split at h
  · exact (Except.ok.inj h).symm
  · exact nomatch h

variable {u v w : Writer} {template e : Entry} {data payload : Bytes}

/-- What packing makes of contents. -/
structure Prepared (level : Deflate.Level) (template : Entry) (data : Bytes) (e : Entry) (payload : Bytes) : Prop where
  directory : (template.isDirectory && !data.isEmpty) = false
  pack : template.method.pack data level template.name.text = .ok payload
  size : fit32 data.length = .ok e.size
  packedSize : fit32 payload.length = .ok e.packedSize
  header : e = { template with
    checksum := Checksum.of data
    size := e.size
    packedSize := e.packedSize
    needed :=
      if template.method = .deflated && template.needed < Entry.version then Entry.version
      else template.needed }

theorem prepared_iff {level : Deflate.Level} :
    prepare level template data = .ok (e, payload) ↔ Prepared level template data e payload := by
  unfold prepare
  constructor
  · intro h
    dsimp only at h
    split at h
    · exact nomatch h
    · next hdirectory =>
      obtain ⟨packed, hpack, h₁⟩ := Result.bind_eq_ok.mp h
      obtain ⟨size, hsize, h₂⟩ := Result.bind_eq_ok.mp h₁
      obtain ⟨packedSize, hpacked, h₃⟩ := Result.bind_eq_ok.mp h₂
      obtain ⟨rfl, rfl⟩ := Prod.mk.inj (Except.ok.inj h₃)
      exact ⟨Bool.eq_false_of_not_eq_true hdirectory, hpack, hsize, hpacked, rfl⟩
  · rintro ⟨hdirectory, hpack, hsize, hpacked, he⟩
    dsimp only
    rw [hdirectory, if_neg Bool.false_ne_true, hpack]
    simp only [bind, Except.bind, hsize, hpacked]
    rw [← he]
    rfl

theorem prepare_eq_ok {level : Deflate.Level} (h : prepare level template data = .ok (e, payload)) :
    e = (Call.add template data).header level ∧ payload = (Call.add template data).payload level ∧
      (Call.add template data).Sized level := by
  obtain ⟨-, hpack, hsize, hpacked, he⟩ := prepared_iff.mp h
  obtain ⟨hsupported, hpayload⟩ := pack_eq_ok hpack
  have hpayload : payload = (Call.add template data).payload level := hpayload
  have he : e = (Call.add template data).header level := by
    rw [he, fit32_eq_ok hsize, fit32_eq_ok hpacked, hpayload]
    rfl
  have hsize := toNat_of_fit32 hsize
  have hpacked := toNat_of_fit32 hpacked
  rw [he] at hsize hpacked
  refine ⟨he, hpayload, hpacked.trans (congrArg _ hpayload), fun t d hc => ?_⟩
  cases hc
  exact ⟨hsupported, hsize⟩

theorem add_of_prepare (h : prepare w.level template data = .ok (e, payload)) :
    w.add template data =
      { w with tally := { w.tally with recompressed := w.tally.recompressed + 1 } }.put e payload := by
  unfold add
  rw [h]

theorem put_of_perform {call : Call} (h : call.perform u = (.ok (), v)) :
    call.Sized u.level ∧
      ∃ tally, { u with tally }.put (call.header u.level) (call.payload u.level) = (.ok (), v) := by
  cases call with
  | add template data =>
    simp only [Call.perform, add] at h
    split at h
    · exact nomatch (Prod.mk.inj h).1
    · next e payload hprepare =>
      obtain ⟨rfl, rfl, hsized⟩ := prepare_eq_ok hprepare
      exact ⟨hsized, _, h⟩
  | copy header payload =>
    simp only [Call.perform, copy] at h
    split at h
    · next hp => exact ⟨⟨hp.symm, nofun⟩, _, h⟩
    · exact nomatch (Prod.mk.inj h).1

theorem Holds.perform {items : List (Entry × Bytes)} (hu : u.Holds items) {call : Call}
    (h : call.perform u = (.ok (), v)) :
    v.Holds (items ++ [(call.header u.level, call.payload u.level)]) ∧ call.Sized u.level ∧
      v.level = u.level ∧ v.comment = u.comment := by
  obtain ⟨hsized, tally, hput⟩ := put_of_perform h
  have hkept := put_level_comment hput
  have hu' : { u with tally }.Holds items := hu.congr rfl rfl
  exact ⟨hu'.put hsized.packedSize hput, hsized, hkept⟩

end Writer

def Call.items (level : Deflate.Level) (calls : List Call) : List (Entry × Bytes) :=
  calls.map fun call => (call.header level, call.payload level)

theorem Taken.holds {u w : Writer} {calls : List Call} (h : Taken u calls w) {items : List (Entry × Bytes)}
    (hu : u.Holds items) :
    w.Holds (items ++ Call.items u.level calls) ∧ (∀ call ∈ calls, call.Sized u.level) ∧
      w.comment = u.comment := by
  induction h generalizing items with
  | none w => exact ⟨by rw [Call.items, List.map_nil, List.append_nil]; exact hu, by simp, rfl⟩
  | step hp _ ih =>
    obtain ⟨hv, hsized, hlevel, hcomment⟩ := hu.perform hp
    obtain ⟨hw, hrest, hc⟩ := ih hv
    rw [hlevel] at hw hrest
    refine ⟨?_, ?_, hc.trans hcomment⟩
    · rw [List.append_assoc] at hw
      exact hw
    · intro call hm
      rcases List.mem_cons.mp hm with he | hm
      · rw [he]
        exact hsized
      · exact hrest call hm

/-- An archive of entries that are stored, each under its name. -/
def packAll (entries : List (EntryName × Bytes)) : Bytes :=
  let items := entries.map fun entry => ((Call.add (.ofName entry.1 .stored) entry.2).header .standard, entry.2)
  let offsets := (List.range items.length).map fun i => (image (items.take i)).length
  let directory := (items.zip offsets).flatMap fun record => record.1.1.centralHeader (UInt32.ofNat record.2)
  image items ++ (directory ++
    (⟨UInt16.ofNat items.length, UInt32.ofNat directory.length, UInt32.ofNat (image items).length, []⟩ :
      EndRecord).toBytes)

/-! ## Whatever a writer has gone through -/

namespace Writer

variable {v w : Writer} {items : List (Entry × Bytes)}

/-- A writer, and what it has been given: the items are those of the calls that it has taken. -/
inductive Reached : Writer → List (Entry × Bytes) → Prop
  | start (level : Deflate.Level) : Reached { level } []
  | withLevel {w : Writer} {items : List (Entry × Bytes)} (level : Deflate.Level) :
      Reached w items → Reached { w with level } items
  | withComment {w : Writer} {items : List (Entry × Bytes)} (comment : Bytes) :
      Reached w items → Reached { w with comment } items
  | taken {v w : Writer} {items : List (Entry × Bytes)} (call : Call) :
      Reached w items → call.perform w = (.ok (), v) →
      Reached v (items ++ [(call.header w.level, call.payload w.level)])
  | refused {v w : Writer} {items : List (Entry × Bytes)} (call : Call) (fault : Error) :
      Reached w items → call.perform w = (.error fault, v) → Reached v items

theorem put_of_error {e : Entry} {payload : Bytes} {fault : Error} (h : w.put e payload = (.error fault, v)) :
    v = w := by
  unfold put at h
  split at h
  · exact (Prod.mk.inj h).2.symm
  · exact nomatch (Prod.mk.inj h).1

theorem kept_of_refused {call : Call} {fault : Error} (h : call.perform w = (.error fault, v)) :
    v.sink = w.sink ∧ v.central = w.central := by
  cases call with
  | add template data =>
    simp only [Call.perform, add] at h
    split at h
    · rw [← (Prod.mk.inj h).2]
      exact ⟨rfl, rfl⟩
    · rw [put_of_error h]
      exact ⟨rfl, rfl⟩
  | copy header payload =>
    simp only [Call.perform, copy] at h
    split at h
    · rw [put_of_error h]
      exact ⟨rfl, rfl⟩
    · rw [← (Prod.mk.inj h).2]
      exact ⟨rfl, rfl⟩

/-- Levels that were changed, comments that were set and calls that were refused leave no trace in what a
writer holds. -/
theorem Reached.holds (h : Reached w items) : w.Holds items := by
  induction h with
  | start level => exact holds_nil level []
  | withLevel level _ ih => exact ih.congr rfl rfl
  | withComment comment _ ih => exact ih.congr rfl rfl
  | taken call _ hcall ih => exact (ih.perform hcall).1
  | refused call fault _ hcall ih =>
    have hkept := kept_of_refused hcall
    exact ih.congr hkept.1 hkept.2

end Writer
end SourceLabel.Zip
