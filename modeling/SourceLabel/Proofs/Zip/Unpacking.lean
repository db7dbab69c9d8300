import SourceLabel.Proofs.Deflate.Meaning
import SourceLabel.Zip.Entry

/-!
# Which payloads are unpacked

A header promises a size and a checksum. A payload is unpacked if, by its method, it stands for data that keep both
promises, and to nothing but these data. No more than one byte beyond the promised size is ever decoded, so what is
wrong with a stream later on is not seen; but by then there is one byte too many.
-/
namespace SourceLabel.Zip

open Result

namespace Method

variable {m : Method} {raw data : Bytes} {size : Nat} {entry : String} {level : Deflate.Level}

/-- A stored payload is the data. A deflated one is decoded to the end of its final block. -/
def StandsFor (m : Method) (raw data : Bytes) : Prop :=
  m = stored ∧ raw = data ∨ m = deflated ∧ Deflate.StandsFor raw data

theorem isSupported_iff : m.isSupported ↔ m = stored ∨ m = deflated := by
  rw [isSupported, Bool.or_eq_true, decide_eq_true_eq, decide_eq_true_eq]

theorem StandsFor.isSupported (h : m.StandsFor raw data) : m.isSupported := by
  rcases h with ⟨hm, -⟩ | ⟨hm, -⟩
  · exact isSupported_iff.mpr (.inl hm)
  · exact isSupported_iff.mpr (.inr hm)

theorem standsFor_stored : stored.StandsFor raw data ↔ raw = data := by
  simp [StandsFor, stored, deflated]

theorem standsFor_deflated : deflated.StandsFor raw data ↔ Deflate.StandsFor raw data := by
  simp [StandsFor, stored, deflated]

theorem check_eq_ok {check : Prop} [Decidable check] {contents : Bytes} {fault : Error} :
    (if check then .ok contents else .error fault : Except Error Bytes) = .ok data ↔ contents = data ∧ check := by
  split
  · next hcheck => simp [hcheck]
  · next hcheck => simp [hcheck]

/-- One byte more than should be there is asked for, and the size is looked at afterwards. -/
theorem unpack_deflated :
    deflated.unpack raw size entry = .ok data ↔ Deflate.inflate raw (size + 1) = .ok data ∧ data.length = size := by
  rw [unpack, if_neg (by decide), if_pos rfl]
  cases hinflate : Deflate.inflate raw (size + 1) with
  | error cause =>
    constructor
    · exact nofun
    · rintro ⟨h, -⟩
      exact nomatch h
  | ok inflated =>
    refine check_eq_ok.trans ?_
    constructor
    · rintro ⟨rfl, hlength⟩
      exact ⟨rfl, hlength⟩
    · rintro ⟨h, hlength⟩
      obtain rfl := Except.ok.inj h
      exact ⟨rfl, hlength⟩

theorem unpack_eq_ok_iff : m.unpack raw size entry = .ok data ↔ m.StandsFor raw data ∧ data.length = size := by
  by_cases hstored : m = stored
  · subst hstored
    rw [standsFor_stored, unpack, if_pos rfl]
    refine check_eq_ok.trans ?_
    constructor
    · rintro ⟨rfl, hlength⟩
      exact ⟨rfl, hlength⟩
    · rintro ⟨rfl, hlength⟩
      exact ⟨rfl, hlength⟩
  by_cases hdeflated : m = deflated
  · subst hdeflated
    rw [standsFor_deflated, unpack_deflated]
    constructor
    · rintro ⟨hinflate, rfl⟩
      exact ⟨(Deflate.inflate_eq_ok_iff (Nat.lt_succ_self _)).mp hinflate, rfl⟩
    · rintro ⟨hstands, rfl⟩
      exact ⟨(Deflate.inflate_eq_ok_iff (Nat.lt_succ_self _)).mpr hstands, rfl⟩
  · rw [unpack, if_neg hstored, if_neg hdeflated]
    constructor
    · exact nofun
    · rintro ⟨hstands, -⟩
      exact ((isSupported_iff.mp hstands.isSupported).elim hstored hdeflated).elim

theorem standsFor_pack (h : m.isSupported) (data : Bytes) (level : Deflate.Level) (entry : String) :
    ∃ payload, m.pack data level entry = .ok payload ∧ m.StandsFor payload data := by
  by_cases hstored : m = stored
  · exact ⟨data, by rw [pack, if_pos hstored], .inl ⟨hstored, rfl⟩⟩
  · have hdeflated : m = deflated := (isSupported_iff.mp h).resolve_left hstored
    exact ⟨Deflate.deflate data level, by rw [pack, if_neg hstored, if_pos hdeflated],
      .inr ⟨hdeflated, Deflate.standsFor_deflate data level⟩⟩

end Method

namespace Entry

variable {e : Entry} {raw data : Bytes}

theorem unpack_eq_ok_iff : e.unpack raw = .ok data ↔
    e.method.StandsFor raw data ∧ data.length = e.size.toNat ∧ Checksum.of data = e.checksum := by
  have hunpack : e.unpack raw = .ok data ↔ ∃ contents, e.method.unpack raw e.size.toNat e.name.text = .ok contents ∧
      contents = data ∧ Checksum.of contents = e.checksum :=
    bind_eq_ok.trans (exists_congr fun _ => and_congr_right fun _ => Method.check_eq_ok)
  rw [hunpack]
  constructor
  · rintro ⟨contents, hcontents, rfl, hsum⟩
    obtain ⟨hstands, hlength⟩ := Method.unpack_eq_ok_iff.mp hcontents
    exact ⟨hstands, hlength, hsum⟩
  · rintro ⟨hstands, hlength, hsum⟩
    exact ⟨data, Method.unpack_eq_ok_iff.mpr ⟨hstands, hlength⟩, rfl, hsum⟩

/-- A payload is unpacked to the data that it stands for, if they have the size and the checksum of the header, and
is refused otherwise, although decoding ends after one byte more than there should be. What was packed is unpacked
again, by every method that is known. -/
theorem unpack_iff_promised (e : Entry) (raw : Bytes) :
    (∀ data, e.unpack raw = .ok data ↔
      e.method.StandsFor raw data ∧ data.length = e.size.toNat ∧ Checksum.of data = e.checksum) ∧
    (∀ inflated, Deflate.inflate raw (e.size.toNat + 1) = .ok inflated → inflated.length ≤ e.size.toNat + 1) ∧
    ∀ data level entry, e.method.isSupported ↔
      ∃ payload, e.method.pack data level entry = .ok payload ∧
        e.method.unpack payload data.length entry = .ok data := by
  refine ⟨fun _ => unpack_eq_ok_iff, fun _ => Deflate.inflate_length_le, fun data level entry => ?_⟩
  constructor
  · intro h
    obtain ⟨payload, hpack, hstands⟩ := Method.standsFor_pack h data level entry
    exact ⟨payload, hpack, Method.unpack_eq_ok_iff.mpr ⟨hstands, rfl⟩⟩
  · rintro ⟨payload, -, hunpack⟩
    exact (Method.unpack_eq_ok_iff.mp hunpack).1.isSupported

end Entry
end SourceLabel.Zip
