import X64Asm.Proofs.Success
import X64Asm.Statement.Read

/-! # The grammar of source lines

What a token sequence may spell, as rules that do not say how it is read.

* The tokens fall into lines at line ends, and a list into items at commas (`Separated`).
* A line is any number of label definitions and then at most one clause (`Line`).
* A clause is a word with its arguments (`Clause`).  A word that is no keyword is a mnemonic.

Each rule gives the value that is spelled.  The readers accept just what the rules derive, and give
the same value (`Segment.statements_eq_ok_iff`). -/

namespace X64Asm

namespace Grammar

/-! ### Rules -/

/-- One item or more, with separators of a kind between them. -/
inductive Separated {α : Type} (separator : TokenKind) (Item : List Token → α → Prop) :
    List Token → List α → Prop
  | last {ts : List Token} {a : α} (item : Item ts a) : Separated separator Item ts [a]
  | cons {ts rest : List Token} {t : Token} {a : α} {as : List α} (item : Item ts a)
      (kind : t.kind = separator) (others : Separated separator Item rest as) :
      Separated separator Item (ts ++ t :: rest) (a :: as)

/-- A name. -/
inductive Name : List Token → String → Prop
  | ident {t : Token} (kind : t.kind = .ident) : Name [t] t.text

/-- A processor mode. -/
inductive Mode : List Token → UInt8 → Prop
  | bits16 {t : Token} (kind : t.kind = .number 16) : Mode [t] 16
  | bits32 {t : Token} (kind : t.kind = .number 32) : Mode [t] 32
  | bits64 {t : Token} (kind : t.kind = .number 64) : Mode [t] 64

/-- A value of so many bytes: a text, or a number in the signed or the unsigned range. -/
inductive Value (width : Nat) : List Token → Bytes → Prop
  | text {t : Token} (kind : t.kind = .stringLit) : Value width [t] (Bytes.ofString t.text)
  | number {t : Token} {v : Int} (kind : t.kind = .number v)
      (least : -(wordCount (8 * width - 1) : Int) ≤ v) (most : v < wordCount (8 * width)) :
      Value width [t] (Bytes.littleEndianInt width v)

/-- What may stand between brackets. -/
inductive Location : Token → Address → Prop
  | register {t : Token} {r : Register} (kind : t.kind = .ident)
      (named : Register.parse? t.text = some r) : Location t (.base r)
  | number {t : Token} {v : Int} (kind : t.kind = .number v) (least : -(wordCount 31 : Int) ≤ v)
      (most : v < wordCount 31) : Location t (.displacement (.imm32 (Int32.ofInt v)))

/-- An operand of an instruction. -/
inductive Argument : List Token → Operand → Prop
  | register {t : Token} {r : Register} (kind : t.kind = .ident)
      (named : Register.parse? t.text = some r) : Argument [t] (.register r)
  | number {t : Token} {v : Int} (kind : t.kind = .number v) (least : -(wordCount 63 : Int) ≤ v)
      (most : v < wordCount 64) : Argument [t] (.constant (Int64.ofInt v))
  | memory {opening t closing : Token} {a : Address} (opened : opening.kind = .openBracket)
      (inside : Location t a) (closed : closing.kind = .closeBracket) :
      Argument [opening, t, closing] (.memory a)

/-- The words that do not introduce an instruction. -/
def keywords : List String :=
  ["bits", "section", "segment", "global", "extern", "db", "dw", "dd", "dq"]

/-- What follows a word, which is given in lower case, and what the two say together. -/
inductive Clause : String → List Token → Statement → Prop
  | mode {ts : List Token} {bits : UInt8} (argument : Mode ts bits) : Clause "bits" ts (.mode bits)
  | enter {word : String} {ts : List Token} {name : String}
      (keyword : word = "section" ∨ word = "segment") (argument : Name ts name) :
      Clause word ts (.enter name)
  | exports {ts : List Token} {names : List String} (arguments : Separated .comma Name ts names) :
      Clause "global" ts (.exports names)
  | imports {ts : List Token} {names : List String} (arguments : Separated .comma Name ts names) :
      Clause "extern" ts (.imports names)
  | data {word : String} {width : Nat} {ts : List Token} {values : List Bytes}
      (keyword : (word, width) ∈ [("db", 1), ("dw", 2), ("dd", 4), ("dq", 8)])
      (arguments : Separated .comma (Value width) ts values) : Clause word ts (.data values)
  | instruction {word : String} {ts : List Token} {operands : List Operand}
      (mnemonic : word ∉ keywords) (arguments : Separated .comma Argument ts operands) :
      Clause word ts (.instruction word operands)
  | bare {word : String} (mnemonic : word ∉ keywords) : Clause word [] (.instruction word [])

/-- The tokens of a line: label definitions, then at most one clause. -/
inductive Line : List Token → List Statement → Prop
  | empty : Line [] []
  | label {t : Token} {ts : List Token} {sts : List Statement} (kind : t.kind = .labelDef)
      (rest : Line ts sts) : Line (t :: ts) (.label t.text :: sts)
  | clause {t : Token} {ts : List Token} {st : Statement} (kind : t.kind = .ident)
      (rest : Clause t.text.toLower ts st) : Line (t :: ts) [st]

/-! ### Tokens of items -/

/-- A token at which an item or a line ends. -/
def Delimits (t : Token) : Prop := t.kind = .comma ∨ t.kind = .newline ∨ t.kind = .eof

/-- What holds of the tokens of items and of separators holds of all. -/
theorem Separated.forall_mem {α : Type} {separator : TokenKind} {Item : List Token → α → Prop}
    {P : Token → Prop} {ts : List Token} {as : List α}
    (hitem : ∀ ts a, Item ts a → ∀ t ∈ ts, P t) (hseparator : ∀ t : Token, t.kind = separator → P t)
    (h : Separated separator Item ts as) : ∀ t ∈ ts, P t := by
  induction h with
  | last item => exact hitem _ _ item
  | cons item kind _ ih =>
      intro t ht
      rcases List.mem_append.mp ht with ht | ht
      · exact hitem _ _ item t ht
      · rcases List.mem_cons.mp ht with rfl | ht
        · exact hseparator _ kind
        · exact ih t ht

section items

variable {t : Token} {ts : List Token}

theorem Name.not_delimits {name : String} (h : Name ts name) : ∀ t ∈ ts, ¬ Delimits t := by
  cases h with
  | ident kind => simp [Delimits, kind]

theorem Mode.not_delimits {bits : UInt8} (h : Mode ts bits) : ∀ t ∈ ts, ¬ Delimits t := by
  cases h with
  | bits16 kind => simp [Delimits, kind]
  | bits32 kind => simp [Delimits, kind]
  | bits64 kind => simp [Delimits, kind]

theorem Value.not_delimits {width : Nat} {bytes : Bytes} (h : Value width ts bytes) :
    ∀ t ∈ ts, ¬ Delimits t := by
  cases h with
  | text kind => simp [Delimits, kind]
  | number kind => simp [Delimits, kind]

theorem Location.not_delimits {a : Address} (h : Location t a) : ¬ Delimits t := by
  cases h with
  | register kind => simp [Delimits, kind]
  | number kind => simp [Delimits, kind]

theorem Argument.not_delimits {op : Operand} (h : Argument ts op) : ∀ t ∈ ts, ¬ Delimits t := by
  cases h with
  | register kind => simp [Delimits, kind]
  | number kind => simp [Delimits, kind]
  | memory opened inside closed =>
      have hinside := inside.not_delimits
      simp_all [Delimits]

/-- No clause goes beyond its line. -/
theorem Clause.newline_free {word : String} {st : Statement} (h : Clause word ts st) :
    ∀ t ∈ ts, t.kind ≠ .newline := by
  have hplain : ∀ t : Token, ¬ Delimits t → t.kind ≠ .newline :=
    fun t ht hkind => ht (.inr (.inl hkind))
  have hcomma : ∀ t : Token, t.kind = .comma → t.kind ≠ .newline := by
    intro t hkind
    simp [hkind]
  cases h with
  | mode argument => exact fun t ht => hplain t (argument.not_delimits t ht)
  | enter _ argument => exact fun t ht => hplain t (argument.not_delimits t ht)
  | exports arguments =>
      exact arguments.forall_mem (fun _ _ item t ht => hplain t (item.not_delimits t ht)) hcomma
  | imports arguments =>
      exact arguments.forall_mem (fun _ _ item t ht => hplain t (item.not_delimits t ht)) hcomma
  | data _ arguments =>
      exact arguments.forall_mem (fun _ _ item t ht => hplain t (item.not_delimits t ht)) hcomma
  | instruction _ arguments =>
      exact arguments.forall_mem (fun _ _ item t ht => hplain t (item.not_delimits t ht)) hcomma
  | bare _ => simp

theorem Line.newline_free {sts : List Statement} (h : Line ts sts) :
    ∀ t ∈ ts, t.kind ≠ .newline := by
  induction h with
  | empty => simp
  | label kind _ ih => simpa [kind] using ih
  | clause kind rest => simpa [kind] using rest.newline_free

end items

end Grammar

open Grammar

/-! ### Numbers in range -/

theorem fits_iff {bits : Nat} {v : Int} :
    FitsSigned bits v ∨ FitsUnsigned bits v ↔
      -(wordCount (bits - 1) : Int) ≤ v ∧ v < wordCount bits := by
  have hsmaller : wordCount (bits - 1) ≤ wordCount bits :=
    Nat.pow_le_pow_right (by omega) (Nat.sub_le bits 1)
  have hpos : 0 < wordCount (bits - 1) := Nat.pow_pos (by omega)
  unfold FitsSigned FitsUnsigned
  omega

/-! ### Readers of tokens -/

namespace Token

variable {t : Token} {v : Int}

theorem name_eq_ok {name : String} :
    t.name = .ok name ↔ t.kind = .ident ∧ t.text = name := by
  unfold Token.name
  by_cases h : t.kind = .ident
  · simp [h]
  · simp [h]

theorem register_eq_ok_iff {r : Register} :
    t.register = .ok r ↔ Register.parse? t.text = some r := by
  unfold register
  cases Register.parse? t.text <;> simp

theorem constant_eq_ok_iff {c : Int64} :
    t.constant v = .ok c ↔
      (-(wordCount 63 : Int) ≤ v ∧ v < wordCount 64) ∧ Int64.ofInt v = c := by
  rw [show (-(wordCount 63 : Int) ≤ v ∧ v < wordCount 64) ↔ _ from (@fits_iff 64 v).symm]
  unfold constant
  split
  · next hfits => simp [hfits]
  · next hfits => simp [hfits]

theorem displacement_eq_ok_iff {d : Int32} :
    t.displacement v = .ok d ↔
      (-(wordCount 31 : Int) ≤ v ∧ v < wordCount 31) ∧ Int32.ofInt v = d := by
  show _ ↔ FitsSigned 32 v ∧ _
  unfold displacement
  split
  · next hfits => simp [hfits]
  · next hfits => simp [hfits]

/-- What is read between brackets is a location. -/
theorem address_eq_ok_iff {a : Address} : t.address = .ok a ↔ Location t a := by
  constructor
  · intro h
    unfold address at h
    split at h
    · next hkind =>
      obtain ⟨r, hr, rfl⟩ := map_eq_ok.mp h
      exact .register hkind (register_eq_ok_iff.mp hr)
    · next v hkind =>
      obtain ⟨disp, hdisp, rfl⟩ := map_eq_ok.mp h
      obtain ⟨⟨hleast, hmost⟩, rfl⟩ := displacement_eq_ok_iff.mp hdisp
      exact .number hkind hleast hmost
    · cases h
  · intro h
    cases h with
    | register kind named =>
        simp only [address, kind]
        exact map_eq_ok.mpr ⟨_, register_eq_ok_iff.mpr named, rfl⟩
    | number kind least most =>
        simp only [address, kind]
        exact map_eq_ok.mpr ⟨_, displacement_eq_ok_iff.mpr ⟨⟨least, most⟩, rfl⟩, rfl⟩

end Token

namespace Segment

variable {separator : TokenKind} {s first : Segment} {others : List Segment} {t stop : Token}
  {ts rest : List Token}

/-! ### Cutting at separators -/

theorem splitOn_cons_separator (h : t.kind = separator) :
    splitOn separator ⟨t :: ts, stop⟩ = ⟨[], t⟩ :: splitOn separator ⟨ts, stop⟩ := by
  simp [splitOn, cut, h]

theorem splitOn_cons_other (h : t.kind ≠ separator)
    (hsplit : splitOn separator ⟨ts, stop⟩ = first :: others) :
    splitOn separator ⟨t :: ts, stop⟩ = ⟨t :: first.tokens, first.stop⟩ :: others := by
  simp only [splitOn, List.cons.injEq] at hsplit
  simp [splitOn, cut, h, hsplit.1, hsplit.2]

theorem splitOn_of_free (h : ∀ t ∈ ts, t.kind ≠ separator) :
    splitOn separator ⟨ts, stop⟩ = [⟨ts, stop⟩] := by
  induction ts with
  | nil => rfl
  | cons t ts ih =>
      rw [List.forall_mem_cons] at h
      exact splitOn_cons_other h.1 (ih h.2)

theorem splitOn_append (h : ∀ t ∈ ts, t.kind ≠ separator) (ht : t.kind = separator) :
    splitOn separator ⟨ts ++ t :: rest, stop⟩ = ⟨ts, t⟩ :: splitOn separator ⟨rest, stop⟩ := by
  induction ts with
  | nil => exact splitOn_cons_separator ht
  | cons u ts ih =>
      rw [List.forall_mem_cons] at h
      exact splitOn_cons_other h.1 (ih h.2)

/-- A run either has no separator, or a first one. -/
theorem cut_cases (separator : TokenKind) (tokens : List Token) :
    (∀ t ∈ tokens, t.kind ≠ separator) ∨
      ∃ ts t rest, tokens = ts ++ t :: rest ∧ (∀ u ∈ ts, u.kind ≠ separator) ∧
        t.kind = separator := by
  induction tokens with
  | nil => exact .inl (by simp)
  | cons u tokens ih =>
      by_cases hu : u.kind = separator
      · exact .inr ⟨[], u, tokens, rfl, by simp, hu⟩
      · rcases ih with hfree | ⟨ts, t, rest, rfl, hfree, ht⟩
        · exact .inl (List.forall_mem_cons.mpr ⟨hu, hfree⟩)
        · exact .inr ⟨u :: ts, t, rest, rfl, List.forall_mem_cons.mpr ⟨hu, hfree⟩, ht⟩

/-- What holds of runs without a separator, and of a run if it holds of what is left behind its first
separator, holds of all runs. -/
theorem cut_induction {P : List Token → Prop} (separator : TokenKind)
    (free : ∀ ts, (∀ t ∈ ts, t.kind ≠ separator) → P ts)
    (cut : ∀ ts t rest, (∀ u ∈ ts, u.kind ≠ separator) → t.kind = separator → P rest →
      P (ts ++ t :: rest)) (ts : List Token) : P ts := by
  induction hlength : ts.length using Nat.strongRecOn generalizing ts with
  | ind n ih =>
      rcases cut_cases separator ts with hfree | ⟨first, t, rest, rfl, hfree, ht⟩
      · exact free ts hfree
      · have hshorter : rest.length < n := by
          rw [← hlength, List.length_append, List.length_cons]
          omega
        exact cut first t rest hfree ht (ih _ hshorter rest rfl)

section separated

variable {α : Type} {read : Segment → Except Diagnostic α} {Item : List Token → α → Prop}
  {as : List α}

theorem separated_of_mapM (hread : ∀ seg a, Delimits seg.stop → read seg = .ok a → Item seg.tokens a)
    (hseparator : ∀ t : Token, t.kind = separator → Delimits t) (hstop : Delimits s.stop)
    (h : (s.splitOn separator).mapM read = .ok as) : Separated separator Item s.tokens as := by
  obtain ⟨tokens, stop⟩ := s
  induction tokens using cut_induction separator generalizing as with
  | free ts hfree =>
      rw [splitOn_of_free hfree, List.mapM_cons] at h
      obtain ⟨a, ha, h⟩ := bind_eq_ok.mp h
      cases h
      exact .last (hread _ a hstop ha)
  | cut ts t rest hfree ht ih =>
      rw [splitOn_append hfree ht, List.mapM_cons] at h
      obtain ⟨a, ha, h⟩ := bind_eq_ok.mp h
      obtain ⟨others, hothers, h⟩ := bind_eq_ok.mp h
      cases h
      exact .cons (hread _ a (hseparator t ht) ha) ht (ih hstop hothers)

theorem mapM_of_separated (hread : ∀ seg a, Delimits seg.stop → Item seg.tokens a → read seg = .ok a)
    (hfree : ∀ ts a, Item ts a → ∀ t ∈ ts, t.kind ≠ separator)
    (hseparator : ∀ t : Token, t.kind = separator → Delimits t) (hstop : Delimits s.stop)
    (h : Separated separator Item s.tokens as) : (s.splitOn separator).mapM read = .ok as := by
  obtain ⟨tokens, stop⟩ := s
  simp only at h
  induction h with
  | last item =>
      rw [splitOn_of_free (hfree _ _ item), List.mapM_cons, hread _ _ hstop item]
      rfl
  | cons item kind _ ih =>
      rw [splitOn_append (hfree _ _ item) kind, List.mapM_cons]
      exact bind_eq_ok.mpr ⟨_, hread _ _ (hseparator _ kind) item, bind_eq_ok.mpr ⟨_, ih hstop, rfl⟩⟩

/-- To read the parts of a segment is to derive them one by one. -/
theorem mapM_splitOn_eq_ok_iff
    (hread : ∀ seg a, Delimits seg.stop → (read seg = .ok a ↔ Item seg.tokens a))
    (hfree : ∀ ts a, Item ts a → ∀ t ∈ ts, t.kind ≠ separator)
    (hseparator : ∀ t : Token, t.kind = separator → Delimits t) (hstop : Delimits s.stop) :
    (s.splitOn separator).mapM read = .ok as ↔ Separated separator Item s.tokens as :=
  ⟨separated_of_mapM (fun seg a hseg => (hread seg a hseg).mp) hseparator hstop,
    mapM_of_separated (fun seg a hseg => (hread seg a hseg).mpr) hfree hseparator hstop⟩

end separated

/-! ### Readers of items -/

theorem complete_eq_ok_iff {α : Type} {value a : α} :
    s.complete value = .ok a ↔ s.tokens = [] ∧ value = a := by
  unfold complete
  cases s.tokens <;> simp

/-- One token is read, unless the reader takes the stop for one. -/
theorem only_eq_ok_iff {α : Type} {f : Token → Except Diagnostic α} {a : α}
    (hstop : ∀ a, f s.stop ≠ .ok a) : s.only f = .ok a ↔ ∃ t, s.tokens = [t] ∧ f t = .ok a := by
  obtain ⟨tokens, stop⟩ := s
  unfold only
  rw [bind_eq_ok]
  simp only [complete_eq_ok_iff]
  cases tokens with
  | nil => simpa [head] using fun h => absurd h (hstop a)
  | cons t ts =>
      cases ts with
      | nil => simp [head, tail]
      | cons u us => simp [tail]

/-- A token that does not delimit is one of the run. -/
theorem tokens_eq_head_cons (hstop : Delimits s.stop) (hhead : ¬ Delimits s.head) :
    s.tokens = s.head :: s.tail.tokens := by
  obtain ⟨tokens, stop⟩ := s
  cases tokens with
  | nil => exact absurd hstop hhead
  | cons t ts => rfl

theorem only_name_eq_ok_iff (hstop : Delimits s.stop) {name : String} :
    s.only Token.name = .ok name ↔ Name s.tokens name := by
  have hname : ∀ name, s.stop.name ≠ .ok name := by
    intro name h
    rcases hstop with hkind | hkind | hkind <;> simp [Token.name_eq_ok, hkind] at h
  rw [only_eq_ok_iff hname]
  constructor
  · rintro ⟨t, htokens, h⟩
    obtain ⟨hkind, rfl⟩ := Token.name_eq_ok.mp h
    rw [htokens]
    exact .ident hkind
  · intro h
    generalize s.tokens = ts at h
    cases h with
    | ident kind => exact ⟨_, rfl, Token.name_eq_ok.mpr ⟨kind, rfl⟩⟩

theorem only_mode_eq_ok_iff (hstop : Delimits s.stop) {bits : UInt8} :
    s.only Token.mode = .ok bits ↔ Mode s.tokens bits := by
  have hmode : ∀ bits, s.stop.mode ≠ .ok bits := by
    intro bits
    rcases hstop with hkind | hkind | hkind <;> simp [Token.mode, hkind]
  rw [only_eq_ok_iff hmode]
  constructor
  · rintro ⟨t, htokens, h⟩
    rw [htokens]
    unfold Token.mode at h
    split at h
    · next hkind => cases h; exact .bits16 hkind
    · next hkind => cases h; exact .bits32 hkind
    · next hkind => cases h; exact .bits64 hkind
    · cases h
  · intro h
    generalize s.tokens = ts at h
    cases h with
    | bits16 kind => exact ⟨_, rfl, by simp [Token.mode, kind]⟩
    | bits32 kind => exact ⟨_, rfl, by simp [Token.mode, kind]⟩
    | bits64 kind => exact ⟨_, rfl, by simp [Token.mode, kind]⟩

theorem only_dataBytes_eq_ok_iff (hstop : Delimits s.stop) {width : UInt8} {bytes : Bytes} :
    s.only (Token.dataBytes · width) = .ok bytes ↔ Value width.toNat s.tokens bytes := by
  have hdata : ∀ bytes, s.stop.dataBytes width ≠ .ok bytes := by
    intro bytes
    rcases hstop with hkind | hkind | hkind <;> simp [Token.dataBytes, hkind]
  rw [only_eq_ok_iff hdata]
  constructor
  · rintro ⟨t, htokens, h⟩
    rw [htokens]
    unfold Token.dataBytes at h
    split at h
    · next hkind => cases h; exact .text hkind
    · next v hkind =>
      split at h
      · next hfits =>
        cases h
        obtain ⟨hleast, hmost⟩ := fits_iff.mp hfits
        exact .number hkind hleast hmost
      · cases h
    · cases h
  · intro h
    generalize s.tokens = ts at h
    cases h with
    | text kind => exact ⟨_, rfl, by simp [Token.dataBytes, kind]⟩
    | number kind least most =>
        refine ⟨_, rfl, ?_⟩
        simp [Token.dataBytes, kind, fits_iff.mpr ⟨least, most⟩]

theorem operand_eq_ok_iff (hstop : Delimits s.stop) {op : Operand} :
    s.operand = .ok op ↔ Argument s.tokens op := by
  constructor
  · intro h
    unfold operand at h
    split at h
    · next v hkind =>
      obtain ⟨c, hc, h⟩ := bind_eq_ok.mp h
      obtain ⟨hrest, rfl⟩ := complete_eq_ok_iff.mp h
      obtain ⟨⟨hleast, hmost⟩, rfl⟩ := Token.constant_eq_ok_iff.mp hc
      rw [tokens_eq_head_cons hstop (by simp [Delimits, hkind]), hrest]
      exact .number hkind hleast hmost
    · next hkind =>
      obtain ⟨r, hr, h⟩ := bind_eq_ok.mp h
      obtain ⟨hrest, rfl⟩ := complete_eq_ok_iff.mp h
      rw [tokens_eq_head_cons hstop (by simp [Delimits, hkind]), hrest]
      exact .register hkind (Token.register_eq_ok_iff.mp hr)
    · next hopen =>
      obtain ⟨a, ha, h⟩ := bind_eq_ok.mp h
      have hinside := Token.address_eq_ok_iff.mp ha
      split at h
      · next hclose =>
        obtain ⟨hrest, rfl⟩ := complete_eq_ok_iff.mp h
        rw [tokens_eq_head_cons hstop (by simp [Delimits, hopen]),
          tokens_eq_head_cons (s := s.tail) hstop hinside.not_delimits,
          tokens_eq_head_cons (s := s.tail.tail) hstop (by simp [Delimits, hclose]), hrest]
        exact .memory hopen hinside hclose
      · cases h
    · cases h
  · intro h
    obtain ⟨tokens, stop⟩ := s
    simp only at h
    cases h with
    | register kind named =>
        simp only [operand, head, List.headD_cons, kind]
        exact bind_eq_ok.mpr ⟨_, Token.register_eq_ok_iff.mpr named, rfl⟩
    | number kind least most =>
        simp only [operand, head, List.headD_cons, kind]
        exact bind_eq_ok.mpr ⟨_, Token.constant_eq_ok_iff.mpr ⟨⟨least, most⟩, rfl⟩, rfl⟩
    | memory opened inside closed =>
        simp only [operand, head, tail, List.headD_cons, List.tail_cons, opened, closed, if_true]
        exact bind_eq_ok.mpr ⟨_, Token.address_eq_ok_iff.mpr inside, rfl⟩

/-! ### Readers of clauses and lines -/

theorem names_eq_ok_iff (hstop : Delimits s.stop) {names : List String} :
    s.names = .ok names ↔ Separated .comma Name s.tokens names :=
  mapM_splitOn_eq_ok_iff (fun _ _ hseg => only_name_eq_ok_iff hseg)
    (fun _ _ item t ht hkind => item.not_delimits t ht (.inl hkind)) (fun _ => .inl) hstop

theorem dataValues_eq_ok_iff (hstop : Delimits s.stop) {width : UInt8} {values : List Bytes} :
    s.dataValues width = .ok values ↔ Separated .comma (Value width.toNat) s.tokens values :=
  mapM_splitOn_eq_ok_iff (fun _ _ hseg => only_dataBytes_eq_ok_iff hseg)
    (fun _ _ item t ht hkind => item.not_delimits t ht (.inl hkind)) (fun _ => .inl) hstop

theorem operands_eq_ok_iff (hstop : Delimits s.stop) {operands : List Operand} :
    s.operands = .ok operands ↔
      s.tokens = [] ∧ operands = [] ∨ Separated .comma Argument s.tokens operands := by
  have hsome : (s.splitOn .comma).mapM operand = .ok operands ↔
      Separated .comma Argument s.tokens operands :=
    mapM_splitOn_eq_ok_iff (fun _ _ hseg => operand_eq_ok_iff hseg)
      (fun _ _ item t ht hkind => item.not_delimits t ht (.inl hkind)) (fun _ => .inl) hstop
  unfold Segment.operands
  by_cases hempty : s.tokens = []
  · have hnone : ¬ Separated .comma Argument s.tokens operands := by
      rw [hempty]
      intro h
      generalize hts : [] = ts at h
      cases h with
      | last item => subst hts; cases item
      | cons => simp at hts
    rw [if_pos (by simpa using hempty), or_iff_left hnone]
    simp [hempty, eq_comm]
  · rw [if_neg (by simpa using hempty), hsome]
    simp [hempty]

theorem keyword_eq_none_iff {word : String} :
    Keyword.ofString? word = none ↔ word ∉ keywords := by
  fun_cases Keyword.ofString? word <;> simp_all [keywords]

/-- The words that a keyword is written as. -/
theorem word_of_keyword {word : String} {keyword : Keyword}
    (h : Keyword.ofString? word = some keyword) :
    match keyword with
    | .mode => word = "bits"
    | .enter => word = "section" ∨ word = "segment"
    | .imports => word = "extern"
    | .exports => word = "global"
    | .data width => (word, width.toNat) ∈ [("db", 1), ("dw", 2), ("dd", 4), ("dq", 8)] := by
  unfold Keyword.ofString? at h
  split at h <;> cases h <;> simp

/-- A word and what follows it are read as the clause that they are. -/
theorem statement_eq_ok_iff {word : Token} (hstop : Delimits s.stop) {st : Statement} :
    statement word s = .ok st ↔ Clause word.text.toLower s.tokens st := by
  unfold statement
  generalize word.text.toLower = w
  constructor
  · intro h
    split at h
    · next hword =>
      obtain ⟨bits, hbits, rfl⟩ := map_eq_ok.mp h
      obtain rfl : w = "bits" := word_of_keyword hword
      exact .mode ((only_mode_eq_ok_iff hstop).mp hbits)
    · next hword =>
      obtain ⟨name, hname, rfl⟩ := map_eq_ok.mp h
      exact .enter (word_of_keyword hword) ((only_name_eq_ok_iff hstop).mp hname)
    · next hword =>
      obtain ⟨names, hnames, rfl⟩ := map_eq_ok.mp h
      obtain rfl : w = "extern" := word_of_keyword hword
      exact .imports ((names_eq_ok_iff hstop).mp hnames)
    · next hword =>
      obtain ⟨names, hnames, rfl⟩ := map_eq_ok.mp h
      obtain rfl : w = "global" := word_of_keyword hword
      exact .exports ((names_eq_ok_iff hstop).mp hnames)
    · next hword =>
      obtain ⟨values, hvalues, rfl⟩ := map_eq_ok.mp h
      exact .data (word_of_keyword hword) ((dataValues_eq_ok_iff hstop).mp hvalues)
    · next hword =>
      obtain ⟨operands, hoperands, rfl⟩ := map_eq_ok.mp h
      rcases (operands_eq_ok_iff hstop).mp hoperands with ⟨htokens, rfl⟩ | harguments
      · rw [htokens]
        exact .bare (keyword_eq_none_iff.mp hword)
      · exact .instruction (keyword_eq_none_iff.mp hword) harguments
  · obtain ⟨tokens, stop⟩ := s
    intro h
    cases h with
    | mode argument => exact map_eq_ok.mpr ⟨_, (only_mode_eq_ok_iff hstop).mpr argument, rfl⟩
    | enter keyword argument =>
        rcases keyword with rfl | rfl
        · exact map_eq_ok.mpr ⟨_, (only_name_eq_ok_iff hstop).mpr argument, rfl⟩
        · exact map_eq_ok.mpr ⟨_, (only_name_eq_ok_iff hstop).mpr argument, rfl⟩
    | exports arguments => exact map_eq_ok.mpr ⟨_, (names_eq_ok_iff hstop).mpr arguments, rfl⟩
    | imports arguments => exact map_eq_ok.mpr ⟨_, (names_eq_ok_iff hstop).mpr arguments, rfl⟩
    | data keyword arguments =>
        simp only [List.mem_cons, Prod.mk.injEq, List.not_mem_nil, or_false] at keyword
        rcases keyword with ⟨rfl, rfl⟩ | ⟨rfl, rfl⟩ | ⟨rfl, rfl⟩ | ⟨rfl, rfl⟩
        all_goals exact map_eq_ok.mpr ⟨_, (dataValues_eq_ok_iff hstop).mpr arguments, rfl⟩
    | instruction mnemonic arguments =>
        rw [keyword_eq_none_iff.mpr mnemonic]
        exact map_eq_ok.mpr ⟨_, (operands_eq_ok_iff hstop).mpr (.inr arguments), rfl⟩
    | bare mnemonic =>
        rw [keyword_eq_none_iff.mpr mnemonic]
        rfl

theorem lineStatements_eq_ok_iff (hstop : Delimits stop) {sts : List Statement} :
    lineStatements stop ts = .ok sts ↔ Line ts sts := by
  induction ts generalizing sts with
  | nil =>
      constructor
      · intro h
        cases h
        exact .empty
      · intro h
        cases h
        rfl
  | cons t ts ih =>
      constructor
      · intro h
        rw [lineStatements] at h
        split at h
        · next hkind =>
          obtain ⟨rest, hrest, rfl⟩ := map_eq_ok.mp h
          exact .label hkind (ih.mp hrest)
        · next hkind =>
          obtain ⟨st, hst, rfl⟩ := map_eq_ok.mp h
          exact .clause hkind ((statement_eq_ok_iff hstop).mp hst)
        · cases h
      · intro h
        cases h with
        | label kind rest =>
            simp only [lineStatements, kind]
            exact map_eq_ok.mpr ⟨_, ih.mpr rest, rfl⟩
        | clause kind rest =>
            simp only [lineStatements, kind]
            exact map_eq_ok.mpr ⟨_, (statement_eq_ok_iff hstop).mpr rest, rfl⟩

/-- Tokens are read as the statements of the lines that they are. -/
theorem statements_eq_ok_iff (hstop : Delimits s.stop) {sts : List Statement} :
    s.statements = .ok sts ↔
      ∃ lines, Separated .newline Line s.tokens lines ∧ lines.flatten = sts := by
  have hlines : ∀ lines, (s.splitOn .newline).mapM (fun line => lineStatements line.stop line.tokens)
      = .ok lines ↔ Separated .newline Line s.tokens lines := fun lines =>
    mapM_splitOn_eq_ok_iff (fun _ _ hseg => lineStatements_eq_ok_iff hseg)
      (fun _ _ line => line.newline_free) (fun _ => .inr ∘ .inl) hstop
  unfold statements
  rw [map_eq_ok]
  simp only [hlines]

theorem ofTokens?_append_eof {eof : Token} {rest : List Token} (hts : ∀ t ∈ ts, t.kind ≠ .eof)
    (heof : eof.kind = .eof) : ofTokens? (ts ++ eof :: rest) = some ⟨ts, eof⟩ := by
  have htake : (ts ++ eof :: rest).takeWhile (·.kind ≠ .eof) = ts := by
    rw [List.takeWhile_append_of_pos (by simpa using hts)]
    simp [heof]
  have hfind : (ts ++ eof :: rest).find? (·.kind = .eof) = some eof := by
    rw [List.find?_append, List.find?_eq_none.mpr (by simpa using hts)]
    simp [heof]
  rw [ofTokens?, htake, hfind, List.getLast?_append_cons, List.getLast?_cons]
  rfl

end Segment

/-- A sequence with an end mark is read as the lines ahead of it. -/
theorem readStatements_eq_ok_iff {ts : List Token} {eof : Token} (hts : ∀ t ∈ ts, t.kind ≠ .eof)
    (heof : eof.kind = .eof) {sts : List Statement} :
    readStatements (ts ++ [eof]) = .ok sts ↔
      ∃ lines, Separated .newline Line ts lines ∧ lines.flatten = sts := by
  rw [readStatements, Segment.ofTokens?_append_eof hts heof]
  exact Segment.statements_eq_ok_iff (.inr (.inr heof))

end X64Asm
