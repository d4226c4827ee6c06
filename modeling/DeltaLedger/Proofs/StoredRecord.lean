import DeltaLedger.Epoch.Stored
import DeltaLedger.Proofs.WrittenDate
import DeltaLedger.Proofs.WrittenObject

/-!
# Records are read back as they were written

Every kind of record that is kept in a node is faithful: the fields it is
written with are read as the same record.  Hence decoding what was encoded gives
the record back, whatever the path, and a payload stands for one record only.
-/

namespace DeltaLedger

open Json

namespace Stored

/-- A kind of record whose written fields are read as the record itself. -/
class Faithful (α : Type) [Stored α] : Prop where
  fields_ne_nil : ∀ record : α, fields record ≠ []
  read?_members : ∀ record : α,
    (∀ field ∈ fields record, fits field.2 = true) →
      read? (.object (members (fields record))) = some record

theorem encode_eq_ok_iff {α : Type} [Stored α] {record : α} {payload : List UInt8} :
    encode record = .ok payload ↔
      (∀ field ∈ fields record, fits field.2 = true) ∧ payload = objectBytes (fields record) := by
  unfold encode
  split
  next hall =>
    rw [List.all_eq_true] at hall
    simp only [Except.ok.injEq]
    exact ⟨fun heq => ⟨hall, heq.symm⟩, fun h => h.2.symm⟩
  next hall =>
    rw [List.all_eq_true] at hall
    exact ⟨nofun, fun h => absurd h.1 hall⟩

theorem decode_encode
    {α : Type} [Stored α] [Faithful α] {record : α} {payload : List UInt8}
    (hencode : encode record = .ok payload) (path : String) :
    decode α path payload = .ok record := by
  obtain ⟨hfits, rfl⟩ := encode_eq_ok_iff.mp hencode
  obtain ⟨field, rest, hfields⟩ :=
    List.exists_cons_of_ne_nil (Faithful.fields_ne_nil record)
  have hread := Faithful.read?_members record hfits
  unfold decode
  rw [hfields] at hread ⊢
  rw [parse?_objectBytes, Option.bind_some, hread]

theorem fields?_members (fields : List (String × Scalar)) (names : List String) :
    (Value.object (members fields)).fields? names =
      names.mapM (Value.uniqueMember? (fields.map fun field => (field.1, field.2.value))) := by
  simp [Value.fields?, namedMembers?_members]

@[simp] theorem fits_text (s : String) : fits (.text s) = true := rfl

@[simp] theorem fits_bool (b : Bool) : fits (.bool b) = true := rfl

@[simp] theorem fits_integer (n : Int) : fits (.integer n) = true ↔ Decimal.Fits n := by
  simp [fits]

@[simp] theorem dateTime?_recordText (t : DateTime) :
    dateTime? (Scalar.text t.recordText).value = some t := by
  simp [dateTime?]

@[simp] theorem status?_text (status : WriteStatus) :
    status? (Scalar.text status.text).value = some status := by
  unfold status?
  rw [choice?_text]
  cases status <;> decide

end Stored

open Stored

instance : Faithful HotDelta where
  fields_ne_nil record := by simp [fields]
  read?_members record hfits := by
    obtain ⟨deltaNum, openedAt, cnFrom, rollingBack, failedCn⟩ := record
    cases failedCn with
    | none =>
        simp only [fields, optionalField, List.append_nil, List.mem_cons, List.not_mem_nil,
          or_false, forall_eq_or_imp, forall_eq, fits_integer] at hfits
        simp [read?, fields, optionalField, fields?_members, Value.uniqueMember?, required,
          Json.optional, hfits]
    | some n =>
        simp only [fields, optionalField, List.cons_append, List.nil_append, List.mem_cons,
          List.not_mem_nil, or_false, forall_eq_or_imp, forall_eq, fits_integer] at hfits
        simp [read?, fields, optionalField, fields?_members, Value.uniqueMember?, required,
          Json.optional, optional?_int?_integer, hfits]

instance : Faithful OkDelta where
  fields_ne_nil record := by simp [fields]
  read?_members record hfits := by
    simp only [fields, List.mem_cons, List.not_mem_nil, or_false, forall_eq_or_imp, forall_eq,
      fits_integer] at hfits
    simp [read?, fields, fields?_members, Value.uniqueMember?, required, hfits]

instance : Faithful WriteOperation where
  fields_ne_nil record := by simp [fields]
  read?_members record hfits := by
    simp only [fields, List.mem_cons, List.not_mem_nil, or_false, forall_eq_or_imp, forall_eq,
      fits_integer] at hfits
    simp [read?, fields, fields?_members, Value.uniqueMember?, required, hfits]

instance : Faithful Counters where
  fields_ne_nil record := by simp [fields]
  read?_members record hfits := by
    obtain ⟨nextCn, lastDeltaNum⟩ := record
    cases lastDeltaNum with
    | none =>
        simp only [fields, optionalField, List.mem_cons, List.not_mem_nil, or_false, forall_eq,
          fits_integer] at hfits
        simp [read?, fields, optionalField, fields?_members, Value.uniqueMember?, required,
          Json.optional, hfits]
    | some n =>
        simp only [fields, optionalField, List.mem_cons, List.not_mem_nil, or_false,
          forall_eq_or_imp, forall_eq, fits_integer] at hfits
        simp [read?, fields, optionalField, fields?_members, Value.uniqueMember?, required,
          Json.optional, optional?_int?_integer, hfits]

/-! ## When a record can be written -/

namespace Stored

/-- A record that can be written. -/
def Writable {α : Type} [Stored α] (record : α) : Prop :=
  ∃ payload, encode record = .ok payload

theorem writable_iff {α : Type} [Stored α] {record : α} :
    Writable record ↔ ∀ field ∈ fields record, fits field.2 = true := by
  constructor
  · intro hwritable
    obtain ⟨payload, hencode⟩ := hwritable
    exact (encode_eq_ok_iff.mp hencode).1
  · intro hfits
    exact ⟨_, encode_eq_ok_iff.mpr ⟨hfits, rfl⟩⟩

theorem of_encode_eq_error {α : Type} [Stored α] {record : α} {e : Failure}
    (hencode : encode record = .error e) :
    ¬Writable record ∧ ∃ message, e = .serialization message := by
  constructor
  · rintro ⟨payload, hpayload⟩
    rw [hencode] at hpayload
    cases hpayload
  · unfold encode at hencode
    split at hencode
    next => cases hencode
    next =>
      cases hencode
      exact ⟨_, rfl⟩

theorem writable_hot_iff {hot : HotDelta} :
    Writable hot ↔ Decimal.Fits hot.deltaNum ∧ Decimal.Fits hot.cnFrom ∧
      ∀ n, hot.failedCn = some n → Decimal.Fits n := by
  rw [writable_iff]
  cases hfailed : hot.failedCn <;> simp [fields, optionalField, hfailed]

theorem writable_ok_iff {ok : OkDelta} :
    Writable ok ↔ Decimal.Fits ok.deltaNum ∧ Decimal.Fits ok.cnFrom ∧ Decimal.Fits ok.cnTo := by
  rw [writable_iff]
  simp [fields]

theorem writable_write_iff {w : WriteOperation} : Writable w ↔ Decimal.Fits w.sysCn := by
  rw [writable_iff]
  simp [fields]

theorem writable_counters_iff {c : Counters} :
    Writable c ↔ Decimal.Fits c.nextCn ∧ ∀ n, c.lastDeltaNum = some n → Decimal.Fits n := by
  rw [writable_iff]
  cases hlast : c.lastDeltaNum <;> simp [fields, optionalField, hlast]

/-! ## Writing and reading back -/

/-- What can be written is read back as it was, and nothing else gets as far as being read. -/
theorem bind_decode_eq_ok_iff {α : Type} [Stored α] [Faithful α] {record : α} (path : String) :
    (encode record).bind (decode α path) = .ok record ↔ Writable record := by
  constructor
  · intro hread
    cases hencode : encode record with
    | error e =>
        rw [hencode] at hread
        cases hread
    | ok payload => exact ⟨payload, hencode⟩
  · rintro ⟨payload, hencode⟩
    rw [hencode]
    exact decode_encode hencode path

end Stored

/-- Records whose numbers fit 64 bits, and no others, are written and read back unchanged.  Texts
and date-times are not limited in any way. -/
theorem records_read_back (path : String) :
    (∀ hot : HotDelta, (encode hot).bind (decode HotDelta path) = .ok hot ↔
      Decimal.Fits hot.deltaNum ∧ Decimal.Fits hot.cnFrom ∧
        ∀ n, hot.failedCn = some n → Decimal.Fits n) ∧
    (∀ ok : OkDelta, (encode ok).bind (decode OkDelta path) = .ok ok ↔
      Decimal.Fits ok.deltaNum ∧ Decimal.Fits ok.cnFrom ∧ Decimal.Fits ok.cnTo) ∧
    (∀ w : WriteOperation, (encode w).bind (decode WriteOperation path) = .ok w ↔
      Decimal.Fits w.sysCn) ∧
    (∀ c : Counters, (encode c).bind (decode Counters path) = .ok c ↔
      Decimal.Fits c.nextCn ∧ ∀ n, c.lastDeltaNum = some n → Decimal.Fits n) := by
  refine ⟨fun hot => ?_, fun ok => ?_, fun w => ?_, fun c => ?_⟩
  · rw [bind_decode_eq_ok_iff, writable_hot_iff]
  · rw [bind_decode_eq_ok_iff, writable_ok_iff]
  · rw [bind_decode_eq_ok_iff, writable_write_iff]
  · rw [bind_decode_eq_ok_iff, writable_counters_iff]

end DeltaLedger
