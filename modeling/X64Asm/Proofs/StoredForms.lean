import X64Asm.Json.Form
import X64Asm.Proofs.Success

/-! # Exact stored forms

A stored form is `Lawful` if every value is read back from it.  Where a number may be too large for
the word that it is stored in, the form is `Exact` for the values whose numbers fit: these are read
back, the others are refused, and whatever is read fits.

The forms of lists and pairs are exact if those of their parts are (`Exact.list`, `Exact.pair`).
So is that of a record (`ExactFields.record`), whose fields are read one after the other into a
tuple. -/

namespace X64Asm

/-! ### Shapes -/

namespace Json

@[simp] theorem items?_arr (items : List Json) : (arr items).items? = some items := rfl

@[simp] theorem members?_obj (members : List (String × Json)) :
    (obj members).members? = some members := rfl

@[simp] theorem namedFields?_obj (names : List String) (members : List (String × Json)) :
    (obj members).namedFields? names = names.mapM fun name => members.lookup name := rfl

@[simp] theorem fields?_obj (names : List String) (members : List (String × Json)) :
    (obj members).fields? names = names.mapM fun name => members.lookup name := rfl

@[simp] theorem tag?_str (name : String) : (str name).tag? = some name := rfl

@[simp] theorem holder?_holder (name : String) (held : Json) :
    (holder name held).holder? = some (name, held) := rfl

/-- Only an object with one member is a case of an enumeration. -/
theorem variant?_obj {members : List (String × Json)} (h : members.length ≠ 1) :
    (obj members).variant? = none := by
  rcases members with _ | ⟨_, _ | _⟩
  · rfl
  · exact absurd rfl h
  · rfl

theorem tag?_obj {members : List (String × Json)} (h : members.length ≠ 1) :
    (obj members).tag? = none := by
  simp [tag?, variant?_obj h]

theorem holder?_obj {members : List (String × Json)} (h : members.length ≠ 1) :
    (obj members).holder? = none := by
  simp [holder?, variant?_obj h]

/-! ### Numbers -/

theorem unsigned?_eq_some_iff {bits n : Nat} {j : Json} :
    j.unsigned? bits = some n ↔ j = .int n ∧ n < wordCount bits := by
  cases j with
  | int value =>
      simp only [unsigned?, Option.ite_none_right_eq_some, Option.some.injEq, Json.int.injEq]
      unfold FitsUnsigned
      omega
  | _ => simp [unsigned?]

theorem signed?_eq_some_iff {bits : Nat} {v : Int} {j : Json} :
    j.signed? bits = some v ↔ j = .int v ∧ FitsSigned bits v := by
  cases j with
  | int value =>
      simp only [signed?, Option.ite_none_right_eq_some, Option.some.injEq, Json.int.injEq]
      constructor
      · rintro ⟨hrange, rfl⟩
        exact ⟨rfl, hrange⟩
      · rintro ⟨rfl, hrange⟩
        exact ⟨hrange, rfl⟩
  | _ => simp [signed?]

theorem unsigned?_toJson {bits n m : Nat} :
    (toJson n).unsigned? bits = some m ↔ n < wordCount bits ∧ m = n := by
  show (int n).unsigned? bits = some m ↔ _
  rw [unsigned?_eq_some_iff, Json.int.injEq]
  omega

theorem signed?_int {bits : Nat} {v w : Int} :
    (int v).signed? bits = some w ↔ FitsSigned bits v ∧ w = v := by
  rw [signed?_eq_some_iff, Json.int.injEq]
  constructor
  · rintro ⟨rfl, hrange⟩
    exact ⟨hrange, rfl⟩
  · rintro ⟨hrange, rfl⟩
    exact ⟨rfl, hrange⟩

end Json

/-! ### Steps that may fail -/

section steps

variable {α β : Type} {read : β → Option α} {write : α → β} {InRange : α → Prop}

/-- To go on after a step with one possible value is to go on with the value. -/
theorem bind_eq_some_iff_of_value {x : Option α} {a : α} {p : Prop}
    (h : ∀ b, x = some b ↔ p ∧ b = a) {f : α → Option β} {c : β} :
    (x >>= f) = some c ↔ p ∧ f a = some c := by
  simp only [Option.bind_eq_bind, Option.bind_eq_some_iff, h]
  constructor
  · rintro ⟨_, ⟨hp, rfl⟩, hc⟩
    exact ⟨hp, hc⟩
  · rintro ⟨hp, hc⟩
    exact ⟨a, ⟨hp, rfl⟩, hc⟩

theorem mapM_map_eq_some_iff (h : ∀ a b, read (write a) = some b ↔ InRange a ∧ b = a)
    (as bs : List α) : (as.map write).mapM read = some bs ↔ (∀ a ∈ as, InRange a) ∧ bs = as := by
  induction as generalizing bs with
  | nil => simp [eq_comm]
  | cons a as ih =>
      simp only [List.map_cons, List.mapM_cons, Option.bind_eq_bind, Option.bind_eq_some_iff, h, ih,
        Option.pure_def, Option.some.injEq, List.forall_mem_cons]
      constructor
      · rintro ⟨_, ⟨ha, rfl⟩, _, ⟨has, rfl⟩, rfl⟩
        exact ⟨⟨ha, has⟩, rfl⟩
      · rintro ⟨⟨ha, has⟩, rfl⟩
        exact ⟨a, ⟨ha, rfl⟩, as, ⟨has, rfl⟩, rfl⟩

theorem exists_of_mapM_eq_some {bs : List β} {as : List α} (h : bs.mapM read = some as) :
    ∀ a ∈ as, ∃ b, read b = some a := by
  induction bs generalizing as with
  | nil =>
      cases h
      simp
  | cons b bs ih =>
      simp only [List.mapM_cons, Option.bind_eq_bind, Option.bind_eq_some_iff, Option.pure_def,
        Option.some.injEq] at h
      obtain ⟨a, ha, rest, hrest, rfl⟩ := h
      exact List.forall_mem_cons.mpr ⟨⟨b, ha⟩, ih hrest⟩

theorem mapM_eq_none_of_mem {bs : List β} {b : β} (hb : b ∈ bs) (h : read b = none) :
    bs.mapM read = none := by
  induction bs with
  | nil => cases hb
  | cons first bs ih =>
      rw [List.mapM_cons]
      cases List.mem_cons.mp hb with
      | inl hfirst =>
          rw [← hfirst, h]
          rfl
      | inr hrest =>
          rw [ih hrest]
          cases read first <;> rfl

end steps

/-! ### Laws of forms -/

namespace JsonForm

/-- Every value is read back. -/
class Lawful (α : Type) [JsonForm α] : Prop where
  ofJson?_toJson : ∀ a : α, ofJson? (toJson a) = some a

attribute [simp] Lawful.ofJson?_toJson

/-- A value is read back if it fits and refused if it does not; only values that fit are read. -/
structure Exact {α : Type} [JsonForm α] (InRange : α → Prop) : Prop where
  reload : ∀ a b : α, ofJson? (toJson a) = some b ↔ InRange a ∧ b = a
  inRange : ∀ j (a : α), ofJson? j = some a → InRange a

section laws

variable {α β γ : Type} [JsonForm α] [JsonForm β] {InRange : α → Prop}

theorem Exact.ofJson?_toJson (h : Exact InRange) {a : α} (ha : InRange a) :
    ofJson? (toJson a) = some a := (h.reload a a).mpr ⟨ha, rfl⟩

theorem Exact.refused (h : Exact InRange) {a : α} (ha : ¬ InRange a) :
    (ofJson? (toJson a) : Option α) = none := by
  rw [Option.eq_none_iff_forall_ne_some]
  intro b hb
  exact ha ((h.reload a b).mp hb).1

theorem Exact.bind_eq_some_iff (h : Exact InRange) {a : α} {f : α → Option γ} {c : γ} :
    (ofJson? (toJson a) >>= f) = some c ↔ InRange a ∧ f a = some c :=
  bind_eq_some_iff_of_value (h.reload a)

theorem Lawful.bind_eq [Lawful α] (a : α) (f : α → Option γ) :
    (ofJson? (toJson a) >>= f) = f a := by
  rw [ofJson?_toJson]
  rfl

/-- What has been read once is read back. -/
theorem Exact.ofJson?_again (h : Exact InRange) {j : Json} {a : α} (ha : ofJson? j = some a) :
    ofJson? (toJson a) = some a := h.ofJson?_toJson (h.inRange j a ha)

theorem Exact.list (h : Exact InRange) : Exact fun as : List α => ∀ a ∈ as, InRange a where
  reload as bs := by
    unfold instJsonFormList
    simp only [Json.items?_arr, Option.bind_eq_bind, Option.bind_some]
    exact mapM_map_eq_some_iff h.reload as bs
  inRange j as has := by
    obtain ⟨items, _, hitems⟩ := Option.bind_eq_some_iff.mp has
    intro a ha
    obtain ⟨i, hi⟩ := exists_of_mapM_eq_some hitems a ha
    exact h.inRange i a hi

theorem Exact.pair [Lawful β] (h : Exact InRange) : Exact fun p : β × α => InRange p.2 where
  reload p q := by
    show (do return (← ofJson? (toJson p.1), ← ofJson? (toJson p.2)) : Option (β × α)) = some q ↔ _
    rw [Lawful.bind_eq, h.bind_eq_some_iff, Option.pure_def, Option.some.injEq, eq_comm (a := q)]
  inRange j p hp := by
    obtain ⟨items, _, hp⟩ := Option.bind_eq_some_iff.mp hp
    split at hp
    · obtain ⟨b, _, hp⟩ := Option.bind_eq_some_iff.mp hp
      obtain ⟨a, ha, hp⟩ := Option.bind_eq_some_iff.mp hp
      cases hp
      exact h.inRange _ a ha
    · cases hp

end laws

instance : Lawful String := ⟨fun _ => rfl⟩

instance : Lawful Bool := ⟨fun _ => rfl⟩

instance : Lawful UInt8 where
  ofJson?_toJson n := by
    have hread : (Json.int n.toNat).unsigned? 8 = some n.toNat :=
      Json.unsigned?_eq_some_iff.mpr ⟨rfl, n.toNat_lt⟩
    unfold instJsonFormUInt8
    simp [hread]

instance : Lawful UInt32 where
  ofJson?_toJson n := by
    have hread : (Json.int n.toNat).unsigned? 32 = some n.toNat :=
      Json.unsigned?_eq_some_iff.mpr ⟨rfl, n.toNat_lt⟩
    unfold instJsonFormUInt32
    simp [hread]

instance {α : Type} [JsonForm α] [Lawful α] : Lawful (List α) where
  ofJson?_toJson as := by
    have hexact : ∀ a b : α, ofJson? (toJson a) = some b ↔ True ∧ b = a := by
      simp [eq_comm]
    unfold instJsonFormList
    simp only [Json.items?_arr, Option.bind_eq_bind, Option.bind_some]
    exact (mapM_map_eq_some_iff hexact as as).mpr ⟨fun _ _ => trivial, rfl⟩

theorem exact_nat : Exact fun n : Nat => n < wordCount 64 where
  reload _ _ := Json.unsigned?_toJson
  inRange _ _ h := (Json.unsigned?_eq_some_iff.mp h).2

/-! ### Records -/

/-- The stored fields of a record are read as the tuple of what they hold, if that fits. -/
structure ExactFields {ρ : Type} (read : List Json → Option ρ) (write : ρ → List Json)
    (InRange : ρ → Prop) : Prop where
  reload : ∀ a b : ρ, read (write a) = some b ↔ InRange a ∧ b = a
  inRange : ∀ fields (a : ρ), read fields = some a → InRange a

/-- Reads the only field. -/
def readField (α : Type) [JsonForm α] : List Json → Option α
  | [field] => ofJson? field
  | _ => none

/-- Reads the first field and the others. -/
def readFields (α : Type) [JsonForm α] {ρ : Type} (read : List Json → Option ρ) :
    List Json → Option (α × ρ)
  | field :: fields => do return (← ofJson? field, ← read fields)
  | [] => none

section records

variable {α ρ : Type} [JsonForm α] {InRange : α → Prop} {read : List Json → Option ρ}
  {write : ρ → List Json} {Others : ρ → Prop}

theorem Lawful.exact [Lawful α] : Exact fun _ : α => True where
  reload a b := by simp [eq_comm]
  inRange _ _ _ := trivial

theorem Exact.field (h : Exact InRange) :
    ExactFields (readField α) (fun a => [toJson a]) InRange where
  reload := h.reload
  inRange fields a hread := by
    rcases fields with _ | ⟨field, _ | _⟩
    · cases hread
    · exact h.inRange field a hread
    · cases hread

theorem Exact.fields (h : Exact InRange) (hothers : ExactFields read write Others) :
    ExactFields (readFields α read) (fun a => toJson a.1 :: write a.2)
      (fun a => InRange a.1 ∧ Others a.2) where
  reload a b := by
    refine (h.bind_eq_some_iff (a := a.1)).trans ?_
    rw [bind_eq_some_iff_of_value (hothers.reload a.2), Option.pure_def, Option.some.injEq,
      ← and_assoc, eq_comm (a := b)]
  inRange fields a hread := by
    rcases fields with _ | ⟨field, fields⟩
    · cases hread
    · simp only [readFields, Option.bind_eq_bind, Option.pure_def, Option.bind_eq_some_iff,
        Option.some.injEq] at hread
      obtain ⟨first, hfirst, others, hrest, rfl⟩ := hread
      exact ⟨h.inRange field first hfirst, hothers.inRange fields others hrest⟩

/-- A record is stored exactly if its fields are.  It is made from the tuple of what they hold, and
has that tuple for its parts. -/
theorem ExactFields.record (h : ExactFields read write Others) {names : List String}
    {readRecord : List Json → Option α} (make : ρ → α) (parts : α → ρ)
    (hread : ∀ j, ofJson? j = (j.fields? names).bind readRecord)
    (hwrite : ∀ a, (toJson a).fields? names = some (write (parts a)))
    (hfields : ∀ fields, readRecord fields = (read fields).map make)
    (hmake : ∀ a, make (parts a) = a) (hparts : ∀ r, parts (make r) = r)
    (hrange : ∀ a, InRange a ↔ Others (parts a)) : Exact InRange where
  reload a b := by
    rw [hread, hwrite, Option.bind_some, hfields, Option.map_eq_some_iff, hrange]
    simp only [h.reload]
    constructor
    · rintro ⟨_, ⟨hothers, rfl⟩, rfl⟩
      exact ⟨hothers, hmake a⟩
    · rintro ⟨hothers, rfl⟩
      exact ⟨_, ⟨hothers, rfl⟩, hmake b⟩
  inRange j a ha := by
    rw [hread, Option.bind_eq_some_iff] at ha
    obtain ⟨fields, _, ha⟩ := ha
    rw [hfields, Option.map_eq_some_iff] at ha
    obtain ⟨r, hr, rfl⟩ := ha
    rw [hrange, hparts]
    exact h.inRange fields r hr

end records

end JsonForm

end X64Asm
