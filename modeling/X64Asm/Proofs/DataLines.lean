import X64Asm.Proofs.FailedEntries
import X64Asm.Proofs.ScannedText

/-! # Lines of data

A line of data is a keyword and values with commas between them, which are numbers and strings
(`DataLine`); `Literal.accepted_iff` says which numbers.  The tokens of the line are the keyword and
one token for each value (`scans_dataLine`), and the values are read from these
(`Listing.parse_dataLine`).  So the line is read if each number is in range
(`mapM_dataBytes_eq_ok_iff`), and otherwise the first that is not is reported
(`mapM_dataBytes_eq_error`).

An entry of data is counted, and its bytes are put out if data is put out at all
(`addEntry_data_iff`).  By induction a line puts out the bytes of its values, one behind the other
(`run_data_iff`).  The two together are `Assembler.emit_dataLine`, with what the bytes are
(`DataItem.Spells`), and with the fact that a line of which nothing is put out shows in no later
answer. -/

namespace X64Asm

open Grammar
open List (Forall₂)

/-! ### Values as they are written -/

/-- A value of a data directive: a number, or a text between quotes. -/
inductive DataItem where
  | number (lit : Literal)
  | string (quote : Char) (content : String)

namespace DataItem

/-- The characters that are written. -/
def chars : DataItem → List Char
  | number lit => lit.chars
  | string quote content => quote :: (content.toList ++ [quote])

/-- The value can be read: a number is accepted as such, and a text is closed by the quote that opens
it. -/
def Readable : DataItem → Prop
  | number lit => lit.Accepted
  | string quote content =>
      isQuote quote = true ∧ quote ∉ content.toList ∧ '\n' ∉ content.toList

/-- A number is in the signed or in the unsigned range of so many bytes. -/
def Fits (width : Nat) : DataItem → Prop
  | number lit => -(2 ^ (8 * width - 1)) ≤ lit.value ∧ lit.value ≤ 2 ^ (8 * width) - 1
  | string _ _ => True

/-- The bytes stand for the value.  Those of a number are of the width and come to it, least
significant first, with a negative number in two's complement; those of a text are its own. -/
def Spells (width : Nat) : DataItem → Bytes → Prop
  | number lit, bytes =>
      bytes.length = width ∧ (bytes.toNat : Int) = lit.value % 2 ^ (8 * width) ∧
        (0 ≤ lit.value → bytes.toNat = lit.value) ∧
        (lit.value < 0 → bytes.toNat = lit.value + 2 ^ (8 * width))
  | string _ content, bytes => bytes = Bytes.ofString content

/-- The bytes that are laid out for the value. -/
def bytes (width : Nat) : DataItem → Bytes
  | number lit => Bytes.littleEndianInt width lit.value
  | string _ content => Bytes.ofString content

/-- The kind of its token. -/
def kind : DataItem → TokenKind
  | number lit => .number lit.value
  | string _ _ => .stringLit

/-- The text of its token. -/
def text : DataItem → String
  | number lit => String.ofList lit.chars
  | string _ content => content

instance : (item : DataItem) → Decidable item.Readable
  | number _ => inferInstanceAs (Decidable (Literal.Accepted _))
  | string _ _ => inferInstanceAs (Decidable (_ ∧ _))

instance (width : Nat) : (item : DataItem) → Decidable (item.Fits width)
  | number _ => inferInstanceAs (Decidable (_ ∧ _))
  | string _ _ => inferInstanceAs (Decidable True)

end DataItem

/-- The characters are values with commas between them.  Blanks may stand around each. -/
inductive DataArguments : List Char → List DataItem → Prop
  | last {before after : List Char} {item : DataItem} (ahead : ∀ c ∈ before, isBlank c = true)
      (readable : item.Readable) (behind : ∀ c ∈ after, isBlank c = true) :
      DataArguments (before ++ (item.chars ++ after)) [item]
  | cons {before after rest : List Char} {item : DataItem} {items : List DataItem}
      (ahead : ∀ c ∈ before, isBlank c = true) (readable : item.Readable)
      (behind : ∀ c ∈ after, isBlank c = true) (others : DataArguments rest items) :
      DataArguments (before ++ (item.chars ++ (after ++ (',' :: rest)))) (item :: items)

/-- The text is a data directive with values of the width: the keyword of the width in any case, and
behind it the values. -/
def DataLine (source : String) (width : UInt8) (items : List DataItem) : Prop :=
  ∃ (lead : List Char) (word : String) (arguments : List Char),
    source.toList = lead ++ (word.toList ++ arguments) ∧ (∀ c ∈ lead, isBlank c = true) ∧
      (word.toLower, width) ∈ [("db", 1), ("dw", 2), ("dd", 4), ("dq", 8)] ∧
      Apart arguments ∧ DataArguments arguments items

theorem DataLine.ne_nil {source : String} {width : UInt8} {items : List DataItem}
    (h : DataLine source width items) : items ≠ [] := by
  obtain ⟨_, _, _, _, _, _, _, harguments⟩ := h
  cases harguments with
  | last => exact List.cons_ne_nil _ _
  | cons => exact List.cons_ne_nil _ _

/-! ### Numbers in bytes -/

theorem wordCount_eq_pow (bits : Nat) : (wordCount bits : Int) = 2 ^ bits := Int.natCast_pow 2 bits

namespace DataItem

variable {width : Nat} {item : DataItem}

theorem fits_number {lit : Literal} : (number lit).Fits width ↔
    FitsSigned (8 * width) lit.value ∨ FitsUnsigned (8 * width) lit.value := by
  rw [fits_iff, wordCount_eq_pow, wordCount_eq_pow, Fits]
  omega

theorem spells_bytes (h : item.Fits width) : item.Spells width (item.bytes width) := by
  cases item with
  | string quote content => rfl
  | number lit =>
      obtain ⟨hleast, hmost⟩ := h
      have hhalf : (2 : Int) ^ (8 * width - 1) ≤ 2 ^ (8 * width) :=
        pow_le_pow_right₀ (by decide) (Nat.sub_le _ _)
      have hnat := Bytes.toNat_littleEndianInt width lit.value
      rw [wordCount_eq_pow] at hnat
      refine ⟨Bytes.length_littleEndianInt width lit.value, hnat, fun hvalue => ?_, fun hvalue => ?_⟩
      · exact hnat.trans (Int.emod_eq_of_lt hvalue (by omega))
      · rw [← Int.add_emod_right, Int.emod_eq_of_lt (by omega) (by omega)] at hnat
        exact hnat

theorem forall₂_spells {items : List DataItem} (h : ∀ item ∈ items, item.Fits width) :
    Forall₂ (Spells width) items (items.map (·.bytes width)) := by
  rw [List.forall₂_map_right_iff, List.forall₂_same]
  exact fun item hitem => spells_bytes (h item hitem)

/-- The token of a value is read as its bytes, or reported as too large. -/
theorem dataBytes_eq {t : Token} {w : UInt8} (hkind : t.kind = item.kind) (htext : t.text = item.text) :
    (item.Fits w.toNat → t.dataBytes w = .ok (item.bytes w.toNat)) ∧
      (¬ item.Fits w.toNat → ∃ lit, item = number lit ∧
        t.dataBytes w = .error (.dataOverflow lit.value w t.span)) := by
  unfold Token.dataBytes
  rw [hkind]
  cases item with
  | string quote content => exact ⟨fun _ => by rw [htext]; rfl, fun h => absurd trivial h⟩
  | number lit =>
      simp only [kind]
      refine ⟨fun h => ?_, fun h => ⟨lit, rfl, ?_⟩⟩
      · rw [if_pos (fits_number.mp h)]
        rfl
      · rw [if_neg fun hfits => h (fits_number.mpr hfits)]

end DataItem

/-! ### The tokens of a line -/

/-- The token is that of the value. -/
def DataItem.IsToken (t : Token) (item : DataItem) : Prop := t.kind = item.kind ∧ t.text = item.text

/-- The tokens of values, with commas between them. -/
def DataTokens : List Token → List DataItem → Prop :=
  Separated .comma fun ts item => ∃ t, ts = [t] ∧ DataItem.IsToken t item

/-- The tokens of a line of data. -/
def DataLineTokens (width : UInt8) (items : List DataItem) (ts : List Token) : Prop :=
  ∃ t us, ts = t :: us ∧ t.kind = .ident ∧
    Keyword.ofString? t.text.toLower = some (.data width) ∧ DataTokens us items

section tokens

variable {source : String} {chars rest : List Char} {width : UInt8} {item : DataItem}
  {items : List DataItem}

theorem scans_dataItem (h : item.Readable) (hrest : Apart rest) :
    Scans item.chars rest fun ts => ∃ t, ts = [t] ∧ DataItem.IsToken t item := by
  have hone : Scans item.chars rest (OneToken item.kind item.text) := by
    cases item with
    | number lit => exact scans_literal h hrest
    | string quote content => exact scans_string h.1 h.2 rest
  refine hone.mono ?_
  rintro _ ⟨span, rfl⟩
  exact ⟨_, rfl, rfl, rfl⟩

/-- Values are read as their tokens, with the commas between them. -/
theorem scans_dataArguments (h : DataArguments chars items) :
    Scans chars [] (DataTokens · items) := by
  induction h with
  | last ahead readable behind =>
      have hapart := apart_of_blanks behind apart_nil
      refine ((scans_blanks ahead _).append
        ((scans_dataItem readable hapart).append (scans_blanks behind []))).mono ?_
      rintro _ ⟨_, _, rfl, rfl, _, _, rfl, hitem, rfl⟩
      rw [List.nil_append, List.append_nil]
      exact .last hitem
  | @cons before after rest item items ahead readable behind _ ih =>
      -- A number ends at the blanks behind it, or at the comma if there are none.
      have hcomma : Apart (',' :: rest ++ []) := apart_cons (by decide) _
      have hapart := apart_of_blanks behind hcomma
      rw [← List.append_assoc] at hapart
      refine ((scans_blanks ahead _).append ((scans_dataItem readable hapart).append
        ((scans_blanks behind _).append ((scans_comma _).append ih)))).mono ?_
      rintro _ ⟨_, _, rfl, rfl, _, _, rfl, hitem, _, _, rfl, rfl, _, _, rfl, ⟨span, rfl⟩, hothers⟩
      exact .cons hitem rfl hothers

/-- The keyword is a name, and says which width the values have. -/
theorem keyword_of_mem {word : String}
    (h : (word.toLower, width) ∈ [("db", (1 : UInt8)), ("dw", 2), ("dd", 4), ("dq", 8)]) :
    isName word = true ∧ Keyword.ofString? word.toLower = some (.data width) := by
  rw [← isName_toLower]
  simp only [List.mem_cons, List.not_mem_nil, or_false, Prod.mk.injEq] at h
  rcases h with ⟨hword, rfl⟩ | ⟨hword, rfl⟩ | ⟨hword, rfl⟩ | ⟨hword, rfl⟩ <;> rw [hword] <;>
    exact ⟨by decide, rfl⟩

/-- The tokens of a line are the keyword and those of the values. -/
theorem scans_dataLine (h : DataLine source width items) :
    Scans source.toList [] (DataLineTokens width items) := by
  obtain ⟨lead, word, arguments, hsource, hlead, hword, hapart, harguments⟩ := h
  obtain ⟨hname, hkeyword⟩ := keyword_of_mem hword
  rw [← List.append_nil arguments] at hapart
  rw [hsource]
  refine ((scans_blanks hlead _).append
    ((scans_name hname hapart).append (scans_dataArguments harguments))).mono ?_
  rintro _ ⟨_, _, rfl, rfl, _, us, rfl, ⟨span, rfl⟩, hvalues⟩
  exact ⟨_, us, rfl, rfl, hkeyword, hvalues⟩

/-! ### What is read of them -/

theorem only_singleton {α : Type} (t stop : Token) (f : Token → Except Diagnostic α) :
    Segment.only ⟨[t], stop⟩ f = f t := by
  show (f t >>= fun value => .ok value) = f t
  cases f t <;> rfl

theorem DataItem.IsToken.kind_ne {t : Token} {kind : TokenKind} (h : IsToken t item)
    (hkind : kind ∈ [.comma, .newline]) : t.kind ≠ kind := by
  simp only [List.mem_cons, List.not_mem_nil, or_false] at hkind
  rw [h.1]
  cases item <;> rcases hkind with rfl | rfl <;> simp [DataItem.kind]

theorem DataLineTokens.newline_free {ts : List Token} (h : DataLineTokens width items ts) :
    ∀ t ∈ ts, t.kind ≠ .newline := by
  obtain ⟨t, us, rfl, hkind, _, hvalues⟩ := h
  refine List.forall_mem_cons.mpr ⟨by simp [hkind], ?_⟩
  refine Separated.forall_mem ?_ (fun u hu => by simp [hu]) hvalues
  rintro _ item ⟨u, rfl, hu⟩
  exact List.forall_mem_singleton.mpr (hu.kind_ne (by decide))

/-- The values are read one by one, each from its token. -/
theorem dataValues_of_tokens {us : List Token} (h : DataTokens us items) (stop : Token) :
    ∃ tokens, Forall₂ DataItem.IsToken tokens items ∧
      Segment.dataValues ⟨us, stop⟩ width = tokens.mapM (Token.dataBytes · width) := by
  have hfree : ∀ {t : Token} {item : DataItem}, DataItem.IsToken t item →
      ∀ u ∈ [t], u.kind ≠ .comma :=
    fun ht => List.forall_mem_singleton.mpr (ht.kind_ne (by decide))
  induction h with
  | last hitem =>
      obtain ⟨t, rfl, ht⟩ := hitem
      refine ⟨[t], .cons ht .nil, ?_⟩
      rw [Segment.dataValues, Segment.splitOn_of_free (hfree ht), List.mapM_cons, List.mapM_cons,
        only_singleton]
      rfl
  | cons hitem hkind _ ih =>
      obtain ⟨t, rfl, ht⟩ := hitem
      obtain ⟨tokens, htokens, hvalues⟩ := ih
      refine ⟨t :: tokens, .cons ht htokens, ?_⟩
      rw [Segment.dataValues, Segment.splitOn_append (hfree ht) hkind, List.mapM_cons,
        List.mapM_cons, only_singleton, ← hvalues]
      rfl

/-- The listing of a line of data is that of its values, each of which is read from its token. -/
theorem Listing.parse_dataLine (h : DataLine source width items) :
    ∃ tokens, Forall₂ DataItem.IsToken tokens items ∧
      parse source = (tokens.mapM (Token.dataBytes · width)).map
        fun values => ofStatements [.data values] := by
  obtain ⟨_, stop, ⟨t, us, rfl, hkind, hword, hvalues⟩, _, hparse⟩ :=
    parse_of_line (scans_dataLine h) fun _ hline => hline.newline_free
  obtain ⟨tokens, htokens, hread⟩ := dataValues_of_tokens hvalues stop
  refine ⟨tokens, htokens, ?_⟩
  rw [hparse, Segment.lineStatements, hkind]
  simp only [Segment.statement, hword]
  rw [hread]
  cases tokens.mapM (Token.dataBytes · width) with
  | error report => rfl
  | ok values => rfl

end tokens

section values

variable {tokens : List Token} {width : UInt8} {items pre post : List DataItem}

/-- The values are read if they are all in range. -/
theorem mapM_dataBytes_eq_ok_iff (h : Forall₂ DataItem.IsToken tokens items) {values : List Bytes} :
    tokens.mapM (Token.dataBytes · width) = .ok values ↔
      (∀ item ∈ items, item.Fits width.toNat) ∧ values = items.map (·.bytes width.toNat) := by
  induction h generalizing values with
  | nil => exact ⟨fun h => ⟨by simp, (Except.ok.inj h).symm⟩, fun h => congrArg Except.ok h.2.symm⟩
  | @cons t item tokens items ht _ ih =>
      obtain ⟨hfits, hlarge⟩ := DataItem.dataBytes_eq (w := width) ht.1 ht.2
      rw [mapM_cons_eq_ok, List.forall_mem_cons, List.map_cons]
      constructor
      · rintro ⟨bytes, others, hbytes, hothers, rfl⟩
        obtain ⟨hall, rfl⟩ := ih.mp hothers
        by_cases hitem : item.Fits width.toNat
        · rw [hfits hitem] at hbytes
          cases hbytes
          exact ⟨⟨hitem, hall⟩, rfl⟩
        · obtain ⟨lit, _, herror⟩ := hlarge hitem
          rw [herror] at hbytes
          cases hbytes
      · rintro ⟨⟨hitem, hall⟩, rfl⟩
        exact ⟨_, _, hfits hitem, ih.mpr ⟨hall, rfl⟩, rfl⟩

/-- The first value that is out of range is reported. -/
theorem mapM_dataBytes_eq_error {item : DataItem}
    (h : Forall₂ DataItem.IsToken tokens (pre ++ item :: post))
    (hpre : ∀ earlier ∈ pre, earlier.Fits width.toNat) (hitem : ¬ item.Fits width.toNat) :
    ∃ lit span, item = .number lit ∧
      tokens.mapM (Token.dataBytes · width) = .error (.dataOverflow lit.value width span) := by
  induction pre generalizing tokens with
  | nil =>
      cases h with
      | @cons t _ tokens _ ht _ =>
          obtain ⟨lit, hlit, herror⟩ := (DataItem.dataBytes_eq ht.1 ht.2).2 hitem
          refine ⟨lit, t.span, hlit, ?_⟩
          rw [List.mapM_cons, herror]
          rfl
  | cons earlier pre ih =>
      rw [List.forall_mem_cons] at hpre
      cases h with
      | @cons t _ tokens _ ht htokens =>
          obtain ⟨lit, span, hlit, herror⟩ := ih htokens hpre.2
          refine ⟨lit, span, hlit, ?_⟩
          rw [List.mapM_cons, (DataItem.dataBytes_eq ht.1 ht.2).1 hpre.1, herror]
          rfl

end values

/-! ### Entries of data -/

namespace Assembler

/-- The state after entries of data that come to these bytes. -/
def withData (s : Assembler) (count : Nat) (bytes : Bytes) : Assembler :=
  { s with
    statementCount := s.statementCount + count
    code := if s.options.emitData then s.code ++ bytes else s.code }

/-- There is room for entries of data that come to so many bytes. -/
structure RoomForData (s : Assembler) (count size : Nat) : Prop where
  statements : s.statementCount + count ≤ s.options.limits.statements
  output : s.options.emitData = true → s.code.size + size ≤ s.options.limits.outputBytes

variable {s t : Assembler} {count size : Nat} {bytes : Bytes} {chunks : List Bytes}

theorem withData_withData (m n : Nat) (first second : Bytes) :
    (s.withData m first).withData n second = s.withData (m + n) (first ++ second) := by
  unfold withData
  cases s.options.emitData with
  | false => simp [Nat.add_assoc]
  | true =>
      simp only [if_true, Nat.add_assoc]
      congr 1
      apply Array.toList_inj.mp
      simp

theorem size_withData (hemit : s.options.emitData = true) (n : Nat) (bytes : Bytes) :
    (s.withData n bytes).code.size = s.code.size + bytes.length := by
  rw [withData, hemit]
  exact size_append s.code bytes

theorem withData_of_emitData_eq_false (h : s.options.emitData = false) (n : Nat) (bytes : Bytes) :
    s.withData n bytes = { s with statementCount := s.statementCount + n } := by
  rw [withData, h]
  rfl

/-- Room for data is room for some of it, and room for the rest behind it. -/
theorem roomForData_add (m n : Nat) (first : Bytes) (size : Nat) :
    s.RoomForData (m + n) (first.length + size) ↔
      s.RoomForData m first.length ∧ (s.withData m first).RoomForData n size := by
  constructor
  · rintro ⟨hstatements, houtput⟩
    refine ⟨⟨by omega, fun hemit => ?_⟩, ⟨?_, fun hemit => ?_⟩⟩
    · have := houtput hemit
      omega
    · show s.statementCount + m + n ≤ s.options.limits.statements
      omega
    · rw [size_withData (s := s) hemit, Nat.add_assoc]
      exact houtput hemit
  · rintro ⟨_, hstatements, houtput⟩
    refine ⟨?_, fun hemit => ?_⟩
    · rw [← Nat.add_assoc]
      exact hstatements
    · have hbehind := houtput hemit
      rw [size_withData hemit, Nat.add_assoc] at hbehind
      exact hbehind

theorem addData_iff : s.addData bytes = ⟨t, none⟩ ↔
    (s.options.emitData = true → s.code.size + bytes.length ≤ s.options.limits.outputBytes) ∧
      t = s.withData 0 bytes := by
  unfold addData withData
  by_cases hemit : s.options.emitData = true
  · rw [if_pos hemit, if_pos hemit, output_iff]
    exact and_congr_left fun _ => ⟨fun h _ => h, fun h => h hemit⟩
  · rw [if_neg hemit, if_neg hemit]
    refine ⟨fun h => ⟨fun h' => absurd h' hemit, (congrArg Outcome.state h).symm⟩, fun h => ?_⟩
    rw [h.2]
    rfl

/-- An entry of data is counted, and then its bytes are put out. -/
theorem addEntry_data_iff : s.addEntry (.data bytes) = ⟨t, none⟩ ↔
    s.RoomForData 1 bytes.length ∧ t = s.withData 1 bytes := by
  by_cases hfull : s.options.limits.statements < s.counted.statementCount
  · rw [addEntry_full hfull]
    exact ⟨fun h => (by cases h), fun h => absurd hfull (Nat.not_lt.mpr h.1.statements)⟩
  · rw [addEntry_room hfull]
    refine addData_iff.trans ⟨fun h => ⟨⟨Nat.not_lt.mp hfull, h.1⟩, h.2⟩, fun h => ⟨h.1.output, h.2⟩⟩

/-- Entries of data put out their bytes one behind the other. -/
theorem run_data_iff : s.run ((bytes :: chunks).map fun chunk => .entry (.data chunk)) = ⟨t, none⟩ ↔
    s.RoomForData (bytes :: chunks).length (bytes :: chunks).flatten.length ∧
      t = s.withData (bytes :: chunks).length (bytes :: chunks).flatten := by
  -- One entry is there at the least, since a run of none goes well even past the limits.
  induction chunks generalizing s bytes with
  | nil =>
      have hone : s.run [.entry (.data bytes)] = ⟨t, none⟩ ↔ s.addEntry (.data bytes) = ⟨t, none⟩ := by
        rw [run_cons_iff]
        exact ⟨fun ⟨u, hu, ht⟩ => hu.trans (congrArg (Outcome.mk · none) (congrArg Outcome.state ht)),
          fun h => ⟨t, h, rfl⟩⟩
      rw [List.flatten_singleton]
      exact hone.trans addEntry_data_iff
  | cons next chunks ih =>
      have hstep : s.run ((bytes :: next :: chunks).map fun chunk => .entry (.data chunk)) = ⟨t, none⟩ ↔
          ∃ u, s.addEntry (.data bytes) = ⟨u, none⟩ ∧
            u.run ((next :: chunks).map fun chunk => .entry (.data chunk)) = ⟨t, none⟩ :=
        run_cons_iff
      rw [hstep, List.length_cons, List.flatten_cons, List.length_append, Nat.add_comm _ 1,
        roomForData_add, ← withData_withData]
      simp only [addEntry_data_iff, ih]
      constructor
      · rintro ⟨_, ⟨hfirst, rfl⟩, hothers, rfl⟩
        exact ⟨⟨hfirst, hothers⟩, rfl⟩
      · rintro ⟨⟨hfirst, hothers⟩, rfl⟩
        exact ⟨_, ⟨hfirst, rfl⟩, hothers, rfl⟩

end Assembler

/-! ### Lines of data -/

/-- Data that stands by itself is the contents of a section without a name. -/
theorem Listing.ofStatements_data {values : List Bytes} (h : values ≠ []) :
    ofStatements [.data values] = ⟨[.sectionBlock "" (values.map .data)]⟩ := by
  have hadd : ({} : Draft).add (.data values) = (values.map SectionEntry.data).foldl Draft.addEntry {} :=
    List.foldl_map.symm
  obtain ⟨_, hplaced, hname, hentries⟩ := Draft.foldl_addEntry (values.map SectionEntry.data) {}
  rw [← hadd] at hplaced hname hentries
  have hentries' : (({} : Draft).add (.data values)).openEntries = values.map SectionEntry.data :=
    hentries
  rcases (({} : Draft).add (.data values)).leave_cases with ⟨_, ⟨_, hnone⟩ | hleave⟩
  · rw [hentries', List.map_eq_nil_iff] at hnone
    exact absurd hnone h
  · show Listing.mk (({} : Draft).add (.data values)).leave.placed.toList = _
    rw [hleave, hplaced, hname, hentries']
    rfl

namespace Assembler

variable {source : String} {width : UInt8} {items : List DataItem} {s t : Assembler}

/-- A text is assembled if it is not too long and its actions can be performed. -/
theorem emit_iff {l : Listing} (h : Listing.parse source = .ok l) : s.emit source = ⟨t, none⟩ ↔
    source.utf8ByteSize ≤ s.options.limits.sourceBytes ∧ s.run l.actions = ⟨t, none⟩ := by
  unfold emit sourceActions
  by_cases hlong : s.options.limits.sourceBytes < source.utf8ByteSize
  · rw [if_pos hlong]
    exact ⟨fun h => (by cases h), fun h => absurd hlong (Nat.not_lt.mpr h.1)⟩
  · rw [if_neg hlong, h]
    exact ⟨fun h => ⟨Nat.not_lt.mp hlong, h⟩, fun h => h.2⟩

/-- A listing of data puts out the bytes of its values. -/
theorem run_ofStatements_data {values : List Bytes} (h : values ≠ []) :
    s.run (Listing.ofStatements [.data values]).actions = ⟨t, none⟩ ↔
      s.RoomForData values.length values.flatten.length ∧
        t = s.withData values.length values.flatten := by
  obtain ⟨bytes, chunks, rfl⟩ := List.exists_cons_of_ne_nil h
  have hactions : (Listing.ofStatements [.data (bytes :: chunks)]).actions =
      .enter "" (bytes :: chunks).length ::
        (bytes :: chunks).map fun chunk => .entry (.data chunk) := by
    rw [Listing.ofStatements_data h]
    simp [Listing.actions, Directive.actions, Function.comp_def]
  rw [hactions, ← run_data_iff]
  rfl

/-- A line of data is read just if each number is in the signed or the unsigned range of the width;
the first that is not is reported, with its value and the width.  When the line is read, it is
assembled if there is room for it, and puts out the bytes of its values, one behind the other.  If
data is left out, nothing is put out, and whatever calls follow have the answers that they would have
without the line, with the same labels at the same offsets, up to the first that reports too many
statements. -/
theorem emit_dataLine (h : DataLine source width items) :
    ((∃ l, Listing.parse source = .ok l) ↔ ∀ item ∈ items, item.Fits width.toNat) ∧
    (∀ pre item post, items = pre ++ item :: post → (∀ earlier ∈ pre, earlier.Fits width.toNat) →
      ¬ item.Fits width.toNat → ∃ lit span, item = .number lit ∧
        Listing.parse source = .error (.dataOverflow lit.value width span)) ∧
    ((∀ item ∈ items, item.Fits width.toNat) → ∃ chunks,
      Forall₂ (DataItem.Spells width.toNat) items chunks ∧ ∀ s t : Assembler,
        (s.emit source = ⟨t, none⟩ ↔ (source.utf8ByteSize ≤ s.options.limits.sourceBytes ∧
          s.RoomForData items.length chunks.flatten.length) ∧
          t = s.withData items.length chunks.flatten) ∧
        (s.emit source = ⟨t, none⟩ → t.labels = s.labels ∧
          (s.options.emitData = true → t.code = s.code ++ chunks.flatten) ∧
          (s.options.emitData = false → t.code = s.code ∧
            ∀ calls, (t.answers calls).takeWhile (!·.exhaustsStatements) <+: s.answers calls))) := by
  obtain ⟨tokens, htokens, hparse⟩ := Listing.parse_dataLine h
  have hread : (∀ item ∈ items, item.Fits width.toNat) → Listing.parse source =
      .ok (.ofStatements [.data (items.map (·.bytes width.toNat))]) := fun hfits =>
    hparse.trans (map_eq_ok.mpr ⟨_, (mapM_dataBytes_eq_ok_iff htokens).mpr ⟨hfits, rfl⟩, rfl⟩)
  refine ⟨⟨?_, fun hfits => ⟨_, hread hfits⟩⟩, ?_, fun hfits => ?_⟩
  · rintro ⟨l, hl⟩
    obtain ⟨values, hvalues, _⟩ := map_eq_ok.mp (hparse.symm.trans hl)
    exact ((mapM_dataBytes_eq_ok_iff htokens).mp hvalues).1
  · rintro pre item post rfl hpre hitem
    obtain ⟨lit, span, hlit, herror⟩ := mapM_dataBytes_eq_error htokens hpre hitem
    exact ⟨lit, span, hlit, hparse.trans (map_eq_error.mpr herror)⟩
  · refine ⟨items.map (·.bytes width.toNat), DataItem.forall₂_spells hfits, fun s t => ?_⟩
    have hemit := (emit_iff (hread hfits)).trans
      (and_congr_right fun _ => run_ofStatements_data (s := s) (t := t) (by simpa using h.ne_nil))
    rw [List.length_map, ← and_assoc] at hemit
    refine ⟨hemit, fun hdone => ?_⟩
    obtain ⟨_, rfl⟩ := hemit.mp hdone
    refine ⟨rfl, fun hdata => ?_, fun hnone => ?_⟩
    · rw [withData, if_pos hdata]
    · rw [withData_of_emitData_eq_false hnone]
      exact ⟨rfl, s.answers_counted_many items.length⟩

/-- The least and the greatest word, and between them a text of two bytes for one character, with a
semicolon and a comma inside. -/
def wordItems : List DataItem :=
  [.number ⟨true, .hex (.ofChars ['8', '0', '0', '0'] (by decide) (by decide))⟩,
    .string '\'' "é;,",
    .number ⟨false, .hexSuffixed (.ofChars ['0', 'F', 'F', 'F', 'F'] (by decide) (by decide))
      (by rintro c ⟨⟩; decide)⟩]

/-- The first of these numbers is in range, the others are not. -/
def largeItems : List DataItem :=
  [.number (.ofInt 1), .number (.ofInt (-32769)), .number (.ofInt 65536)]

theorem dataLine_wordItems : DataLine "\tDw -0x8000 ,'é;,' , 0FFFFh" 2 wordItems := by
  have hnone : ∀ c ∈ [], isBlank c = true := List.all_eq_true.mp rfl
  have hblank : ∀ c ∈ [' '], isBlank c = true := List.all_eq_true.mp rfl
  refine ⟨['\t'], "Dw", _, ?_, List.all_eq_true.mp rfl, by decide +kernel, ?_,
    .cons hblank ?_ hblank (.cons hnone ?_ hblank (.last hblank ?_ hnone))⟩
  all_goals decide +kernel

theorem dataLine_largeItems : DataLine "dw 1,-32769,65536" 2 largeItems := by
  have hnone : ∀ c ∈ [], isBlank c = true := List.all_eq_true.mp rfl
  have hblank : ∀ c ∈ [' '], isBlank c = true := List.all_eq_true.mp rfl
  refine ⟨[], "dw", _, ?_, hnone, by decide +kernel, ?_,
    .cons hblank ?_ hnone (.cons hnone ?_ hnone (.last hnone ?_ hnone))⟩
  all_goals decide +kernel

/-- The words are put out if data is, and otherwise only counted; of the numbers that are no words the
first is reported. -/
theorem emit_dataLine_words :
    DataLine "\tDw -0x8000 ,'é;,' , 0FFFFh" 2 wordItems ∧
    (∃ chunks, Forall₂ (DataItem.Spells 2) wordItems chunks ∧
      chunks.flatten = [0x00, 0x80, 0xC3, 0xA9, 0x3B, 0x2C, 0xFF, 0xFF]) ∧
    ({} : Assembler).emit "\tDw -0x8000 ,'é;,' , 0FFFFh" = done { statementCount := 3 } ∧
    DataLine "dw 1,-32769,65536" 2 largeItems ∧
    ∃ span, Listing.parse "dw 1,-32769,65536" = .error (.dataOverflow (-32769) 2 span) := by
  obtain ⟨_, _, hemit⟩ := emit_dataLine dataLine_wordItems
  obtain ⟨chunks, hspells, hdone⟩ := hemit (by decide +kernel)
  have hput : ({ options := { emitData := true } } : Assembler).emit
      "\tDw -0x8000 ,'é;,' , 0FFFFh" =
        done { options := { emitData := true }, statementCount := 3,
               code := #[0x00, 0x80, 0xC3, 0xA9, 0x3B, 0x2C, 0xFF, 0xFF] } := by
    decide +kernel
  have hcode := ((hdone _ _).2 hput).2.1 rfl
  have hflatten : chunks.flatten = [0x00, 0x80, 0xC3, 0xA9, 0x3B, 0x2C, 0xFF, 0xFF] := by
    simpa using (congrArg Array.toList hcode).symm
  have hcounted : ({} : Assembler).emit "\tDw -0x8000 ,'é;,' , 0FFFFh" =
      done { statementCount := 3 } :=
    (hdone _ _).1.mpr ⟨⟨by decide +kernel, by decide, fun hdata => by cases hdata⟩, rfl⟩
  obtain ⟨lit, span, hlit, herror⟩ := (emit_dataLine dataLine_largeItems).2.1
    [.number (.ofInt 1)] (.number (.ofInt (-32769))) [.number (.ofInt 65536)] rfl
    (by decide +kernel) (by decide +kernel)
  cases hlit
  refine ⟨dataLine_wordItems, ⟨chunks, hspells, hflatten⟩, hcounted, dataLine_largeItems, span, ?_⟩
  rw [herror, Literal.value_ofInt]

end Assembler

end X64Asm
