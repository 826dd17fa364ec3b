import LatticeSurgery.Json.Form
import LatticeSurgery.Proofs.Json.Text

/-! # Forms are read back

Every type with a JSON form is read back from its text as it was written.
-/

namespace LatticeSurgery

namespace Json

theorem decodeKeys?_record (members : List (String × Json)) :
    decodeKeys? (members.map fun member => (Quoted.encode member.1, member.2)) = some members := by
  induction members with
  | nil => rfl
  | cons member members ih => simp [decodeKeys?, Quoted.decode?_encode, ih]

theorem lookup_of_mem {members : List (String × Json)} (distinct : (members.map Prod.fst).Nodup)
    {member : String × Json} (inside : member ∈ members) : members.lookup member.1 = some member.2 := by
  induction members with
  | nil => cases inside
  | cons first rest ih =>
      rw [List.map_cons, List.nodup_cons] at distinct
      rcases List.mem_cons.mp inside with rfl | inside
      · exact List.lookup_cons_self
      · have other : member.1 ≠ first.1 := fun same => distinct.1 (same ▸ List.mem_map_of_mem inside)
        rw [List.lookup_cons, beq_false_of_ne other]
        exact ih distinct.2 inside

/-- The fields of a record are found under their names. -/
theorem fields?_record {names : List String} {members : List (String × Json)}
    (named : members.map Prod.fst = names) (distinct : names.Nodup) :
    fields? names (record members) = some (members.map fun member => some member.2) := by
  have keys : decodeKeys? (members.map fun member => (Quoted.encode member.1, member.2)) = some members :=
    decodeKeys?_record members
  have once : ∀ name, members.countP (·.1 = name) ≤ 1 := by
    intro name
    have few := List.nodup_iff_count.mp distinct name
    rw [← named, List.count_eq_countP, List.countP_map] at few
    exact few
  have single : (names.any fun name => 1 < members.countP (·.1 = name)) = false := by
    rw [List.any_eq_false]
    intro name _ more
    have few := once name
    simp only [decide_eq_true_eq] at more
    omega
  show (decodeKeys? (members.map fun member => (Quoted.encode member.1, member.2)) >>= _) = _
  rw [keys]
  show (if (names.any fun name => 1 < members.countP (·.1 = name)) = true then none
    else some (names.map fun name => members.lookup name)) = _
  rw [single, if_neg (by simp), ← named, List.map_map]
  exact congrArg some (List.map_congr_left fun member => lookup_of_mem (named ▸ distinct))

theorem plain_record {members : List (String × Json)} (plain : ∀ member ∈ members, member.2.Plain) :
    (record members).Plain := by
  refine .object ?_ ?_
  · intro member inside
    obtain ⟨field, -, rfl⟩ := List.mem_map.mp inside
    exact ⟨field.1, rfl⟩
  · intro member inside
    obtain ⟨field, known, rfl⟩ := List.mem_map.mp inside
    exact plain field known

end Json

namespace Form

/-- A form that is read back as it was written. -/
class Faithful (α : Type) [form : Form α] where
  /-- Every number of a value is a 64-bit number. -/
  Fits : α → Prop
  plain : ∀ a : α, (write a).Plain
  read?_write : ∀ a : α, Fits a → read? (write a) = some a

open Faithful

instance : Faithful Nat where
  Fits n := n < wordLimit
  plain n := .number n
  read?_write _ fits := Json.natural?_toDigits fits

instance : Faithful String where
  Fits _ := True
  plain text := .string text
  read?_write text _ := Quoted.decode?_encode text

theorem fits_number {n : Nat} : Fits n ↔ n < wordLimit := Iff.rfl

@[simp] theorem fits_text (text : String) : Fits text := trivial

theorem readField?_write {α : Type} [Form α] [Faithful α] {a : α} (fits : Fits a) : readField? (some (write a)) = some a :=
  read?_write a fits

theorem bind_fields? {α : Type} {names : List String} {members : List (String × Json)} {a : Option α}
    {build : List (Option Json) → Option α} (named : members.map Prod.fst = names) (distinct : names.Nodup)
    (built : build (members.map fun member => some member.2) = a) :
    (Json.fields? names (Json.record members) >>= build) = a := by
  rw [Json.fields?_record named distinct]
  exact built

instance : Faithful Coord where
  Fits c := Fits c.row ∧ Fits c.col
  plain c := Json.plain_record (by simp [plain])
  read?_write c fits := bind_fields? rfl (by decide) (by simp [readField?_write, fits])

instance : Faithful Factory where
  Fits f := Fits f.period
  plain f := Json.plain_record (by simp [plain])
  read?_write f fits := bind_fields? rfl (by decide) (by simp [readField?_write, fits])

theorem readAll?_write {α : Type} [Form α] [Faithful α] {as : List α} (fits : ∀ a ∈ as, Fits a) :
    readAll? (as.map write) = some as := by
  induction as with
  | nil => rfl
  | cons a as ih =>
      obtain ⟨first, others⟩ := List.forall_mem_cons.mp fits
      simp [readAll?, read?_write a first, ih others]

instance {α : Type} [Form α] [Faithful α] : Faithful (List α) where
  Fits as := ∀ a ∈ as, Fits a
  plain as := .array (by simp [plain])
  read?_write _ fits := readAll?_write fits

theorem encodeChar_of_isDigit {c : Char} (digit : c.isDigit) : Quoted.encodeChar c = [c] := by
  have large : ¬c.toNat < 0x20 := by
    have bounds : 48 ≤ c.val ∧ c.val ≤ 57 := by simpa [Char.isDigit] using digit
    have lower : 48 ≤ c.toNat := bounds.1
    omega
  have other : ∀ d : Char, d.isDigit = false → c ≠ d := by
    rintro d no rfl
    rw [digit] at no
    cases no
  simp [Quoted.encodeChar, large, other]

theorem encode_toDigits (n : Nat) : Quoted.encode (String.ofList (Nat.toDigits 10 n)) = Nat.toDigits 10 n := by
  unfold Quoted.encode
  rw [String.toList_ofList]
  have digits := @Numeral.isDigit_of_mem_toDigits n
  generalize Nat.toDigits 10 n = cs at digits
  induction cs with
  | nil => rfl
  | cons c cs ih =>
      rw [List.flatMap_cons, encodeChar_of_isDigit (digits List.mem_cons_self),
        ih fun member => digits (List.mem_cons_of_mem _ member)]
      rfl

theorem readEntries?_write {α : Type} [Form α] [Faithful α] {listed : List (NodeId × α)}
    (fits : ∀ entry ∈ listed, entry.1 < wordLimit ∧ Fits entry.2) (entries : NodeMap α) :
    readEntries? entries (listed.map fun entry => (Nat.toDigits 10 entry.1, write entry.2))
      = some (entries.insertMany listed) := by
  induction listed generalizing entries with
  | nil => simp [readEntries?]
  | cons entry listed ih =>
      obtain ⟨id, a⟩ := entry
      obtain ⟨⟨small, first⟩, others⟩ := List.forall_mem_cons.mp fits
      simp [readEntries?, Json.natural?_toDigits small, read?_write a first, ih others,
        Std.ExtTreeMap.insertMany_cons]

instance {α : Type} [Form α] [Faithful α] : Faithful (NodeMap α) where
  Fits entries := ∀ id a, entries[id]? = some a → id < wordLimit ∧ Fits a
  plain entries := by
    refine .object ?_ ?_
    · intro member inside
      obtain ⟨entry, -, rfl⟩ := List.mem_map.mp inside
      exact ⟨_, (encode_toDigits entry.1).symm⟩
    · intro member inside
      obtain ⟨entry, -, rfl⟩ := List.mem_map.mp inside
      exact plain entry.2
  read?_write entries fits := by
    have listed : ∀ entry ∈ entries.toList, entry.1 < wordLimit ∧ Fits entry.2 :=
      fun entry member => fits _ _ (Std.ExtTreeMap.mem_toList_iff_getElem?_eq_some.mp member)
    exact (readEntries?_write listed ∅).trans (congrArg some (NodeMap.insertMany_toList entries))

/-! ## Choices -/

theorem variant?_writeTag (name : String) : (writeTag name).variant? = some (name, none) := by
  simp [writeTag, Json.variant?, Quoted.decode?_encode]

theorem variant?_record (name : String) (content : Json) :
    (Json.record [(name, content)]).variant? = some (name, some content) := by
  simp [Json.record, Json.variant?, Quoted.decode?_encode]

theorem readTag?_writeTag {α : Type} (alternatives : List (String × α)) (name : String) :
    readTag? alternatives (writeTag name) = alternatives.lookup name := by
  simp [readTag?, Json.tag?, variant?_writeTag]

instance : Faithful Boundary where
  Fits _ := True
  plain b := by cases b <;> exact .string _
  read?_write b _ := by cases b <;> exact readTag?_writeTag _ _

instance : Faithful PatchKind where
  Fits _ := True
  plain kind := by cases kind <;> exact .string _
  read?_write kind _ := by cases kind <;> exact readTag?_writeTag _ _

@[simp] theorem fits_boundary (b : Boundary) : Fits b := trivial

@[simp] theorem fits_kind (kind : PatchKind) : Fits kind := trivial

instance : Faithful Operation where
  Fits op := ∀ label cycles ancillae, op = .custom label cycles ancillae → Fits cycles ∧ Fits ancillae
  plain op := by
    cases op with
    | custom label cycles ancillae => exact Json.plain_record (by simp [plain, Json.plain_record])
    | _ => exact .string _
  read?_write op fits := by
    cases op with
    | custom label cycles ancillae =>
        have fits := fits label cycles ancillae rfl
        show (Json.variant? (Json.record [("Custom", _)]) >>= _) = _
        rw [variant?_record, Option.bind_eq_bind, Option.bind_some]
        split
        next same =>
            cases same
            exact bind_fields? rfl (by decide) (by simp [readField?_write, fits])
        next other => exact absurd rfl (other _)
    | _ =>
        show (Json.variant? (writeTag _) >>= _) = _
        rw [variant?_writeTag, Option.bind_eq_bind, Option.bind_some]
        split
        next same => exact absurd (congrArg Prod.snd same) (by simp)
        · exact readTag?_writeTag plainOperations _

instance : Faithful Stage where
  Fits stage := ∀ remaining, stage = .active remaining → Fits remaining
  plain stage := by
    cases stage with
    | active remaining => exact Json.plain_record (by simp [plain, Json.plain_record])
    | _ => exact .string _
  read?_write stage fits := by
    cases stage with
    | active remaining =>
        have fits := fits remaining rfl
        show (Json.variant? (Json.record [("Active", _)]) >>= _) = _
        rw [variant?_record, Option.bind_eq_bind, Option.bind_some]
        split
        next same =>
            cases same
            exact bind_fields? rfl (by decide) (by simp [readField?_write, fits])
        next other => exact absurd rfl (other _)
    | _ =>
        show (Json.variant? (writeTag _) >>= _) = _
        rw [variant?_writeTag, Option.bind_eq_bind, Option.bind_some]
        split
        next same => exact absurd (congrArg Prod.snd same) (by simp)
        · exact readTag?_writeTag _ _

/-! ## Records -/

instance : Faithful Draw where
  Fits d := Fits d.rank ∧ Fits d.period
  plain d := Json.plain_record (by simp [plain])
  read?_write d fits := bind_fields? rfl (by decide) (by simp [readField?_write, fits])

instance : Faithful CycleRecord where
  Fits r := Fits r.cycle ∧ Fits r.admitted ∧ Fits r.active ∧ Fits r.resolved
  plain r := Json.plain_record (by simp [plain])
  read?_write r fits := bind_fields? rfl (by decide) (by simp [readField?_write, fits])

instance : Faithful Timeline where
  Fits t := Fits t.cycles ∧ Fits t.routes
  plain t := Json.plain_record (by simp [plain])
  read?_write t fits := bind_fields? rfl (by decide) (by simp [readField?_write, fits])

instance : Faithful Plan where
  Fits p := Fits p.cycles ∧ Fits p.layers ∧ Fits p.draws
  plain p := Json.plain_record (by simp [plain])
  read?_write p fits := bind_fields? rfl (by decide) (by simp [readField?_write, fits])

instance : Faithful Chains where
  Fits c := Fits c.roots ∧ Fits c.refills ∧ Fits c.retired ∧ Fits c.plan
  plain c := Json.plain_record (by simp [plain])
  read?_write c fits := bind_fields? rfl (by decide) (by simp [readField?_write, fits])

instance : Faithful Layer where
  Fits l := Fits l.nodes ∧ Fits l.congestion ∧ Fits l.fed
  plain l := Json.plain_record (by simp [plain])
  read?_write l fits := bind_fields? rfl (by decide) (by simp [readField?_write, fits])

instance : Faithful Lock where
  Fits l := Fits l.node ∧ Fits l.lockedAt ∧ Fits l.freeAt
  plain l := Json.plain_record (by simp [plain])
  read?_write l fits := bind_fields? rfl (by decide) (by simp [readField?_write, fits])

theorem readFieldD?_write {α : Type} [Form α] [Faithful α] {a : α} (default : α) (fits : Fits a) :
    readFieldD? default (some (write a)) = some a :=
  read?_write a fits

/-- A lock is no null, which stands for none. -/
instance : Faithful (Option Lock) where
  Fits lock := ∀ l, lock = some l → Fits l
  plain lock := by
    cases lock with
    | none => exact .null
    | some l => exact plain l
  read?_write lock fits := by
    cases lock with
    | none => rfl
    | some l => exact congrArg (Option.map some) (read?_write l (fits l rfl))

instance : Faithful Patch where
  Fits p := Fits p.coord ∧ Fits p.lock ∧ Fits p.lastUsed
  plain p := Json.plain_record (by simp [plain])
  read?_write p fits := bind_fields? rfl (by decide) (by simp [readField?_write, readFieldD?_write, fits])

instance : Faithful RouterSettings where
  Fits s := Fits s.stallLimit
  plain s := Json.plain_record (by simp [plain])
  read?_write s fits := bind_fields? rfl (by decide) (by simp [readFieldD?_write, fits])

instance : Faithful Settings where
  Fits s := Fits s.channelCapacity ∧ Fits s.factories ∧ Fits s.router
  plain s := Json.plain_record (by simp [plain])
  read?_write s fits := bind_fields? rfl (by decide) (by simp [readFieldD?_write, fits])

theorem ofText_text {α : Type} [Form α] [Faithful α] {a : α} (fits : Fits a) (style : Json.Style) :
    ofText (text style a) = .ok a := by
  simp [ofText, text, Json.parse?_text (plain a), read?_write a fits]

end Form

open Form Faithful

namespace Settings

theorem load_save {s : Settings} (fits : Fits s) :
    load (some s.save.toUTF8) = s.validate.map fun _ => s := by
  have bytes : String.fromUTF8? s.save.toUTF8 = some s.save := by
    unfold String.fromUTF8?
    rw [String.toUTF8_eq_toByteArray, dif_pos s.save.isValidUTF8]
    rfl
  have read : Form.ofText s.save = .ok s := ofText_text fits .pretty
  simp only [load, Option.bind_some, bytes, read]
  show (s.validate >>= fun _ => pure s) = _
  cases s.validate <;> rfl

end Settings

/-- Settings, operations and results are read back from their texts as they were written, if their numbers are
    64-bit numbers. A settings file gives its settings if they are valid, and otherwise the error that says why
    they are not. -/
theorem read_back :
    (∀ s : Settings, Fits s → ofText s.save = .ok s ∧
      (Settings.load (some s.save.toUTF8) = .ok s ↔ s.validate = .ok ()) ∧
      ∀ e, s.validate = .error e → Settings.load (some s.save.toUTF8) = .error e) ∧
    (∀ op : Operation, Fits op → ofText (text .compact op) = .ok op) ∧
    (∀ plan : Plan, Fits plan → ofText (text .compact plan) = .ok plan) ∧
    (∀ timeline : Timeline, Fits timeline → ofText (text .compact timeline) = .ok timeline) ∧
    (∀ chains : Chains, Fits chains → ofText (text .compact chains) = .ok chains) ∧
    (∀ patch : Patch, Fits patch → ofText (text .compact patch) = .ok patch) ∧
    (∀ layer : Layer, Fits layer → ofText (text .compact layer) = .ok layer) ∧
    (∀ stage : Stage, Fits stage → ofText (text .compact stage) = .ok stage) := by
  refine ⟨fun s fits => ⟨ofText_text fits .pretty, ?_, ?_⟩, fun _ fits => ofText_text fits _,
    fun _ fits => ofText_text fits _, fun _ fits => ofText_text fits _, fun _ fits => ofText_text fits _,
    fun _ fits => ofText_text fits _, fun _ fits => ofText_text fits _, fun _ fits => ofText_text fits _⟩
  · rw [Settings.load_save fits]
    cases s.validate <;> simp [Except.map]
  · intro e refused
    rw [Settings.load_save fits, refused]
    rfl

/-- The largest number, and a name with a quote, a backslash, a control character and one beyond the basic plane. -/
def oddSettings : Settings :=
  { channelCapacity := 18446744073709551615, factories := [⟨"T\"\\\x07\n𝕋", 0⟩], router := ⟨0⟩ }

theorem read_back_odd :
    Fits oddSettings ∧ ofText oddSettings.save = .ok oddSettings ∧
      Settings.load (some oddSettings.save.toUTF8) = .error (.badSetup (.zeroPeriod "T\"\\\x07\n𝕋")) ∧
      ofText (text .compact (Stage.active 18446744073709551615)) = .ok (Stage.active 18446744073709551615) := by
  have fits : Fits oddSettings := by
    refine ⟨fits_number.mpr (by decide), ?_, fits_number.mpr (by decide)⟩
    intro factory member
    rw [List.mem_singleton.mp member]
    exact fits_number.mpr (by decide)
  obtain ⟨read, -, refused⟩ := read_back.1 oddSettings fits
  refine ⟨fits, read, refused _ rfl, read_back.2.2.2.2.2.2.2 _ ?_⟩
  rintro remaining ⟨⟩
  exact fits_number.mpr (by decide)

end LatticeSurgery
