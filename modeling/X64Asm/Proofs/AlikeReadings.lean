import X64Asm.Listing.Build
import X64Asm.Proofs.Grammar

/-! # Readings of alike tokens

Tokens are read by their kind and text, and most texts only by their letters in lower case.  A
`Likeness` says when two texts, two runs of data bytes and two reports count as the same.  Token
sequences whose tokens are alike are then both read, as listings that are the same up to the names and
data in them, or both refused, with reports that are alike (`Likeness.agree_ofTokens`).

The chain follows the readers: tokens, segments, lines, listings.  Each of its steps says that two
results `Agree`. -/

namespace X64Asm

open List (Forall₂)

/-! ### Results that agree -/

/-- Both succeed, with values that are related, or both fail, with reports that are related. -/
inductive Agree {α β : Type} (Value : α → β → Prop) (Report : Diagnostic → Diagnostic → Prop) :
    Except Diagnostic α → Except Diagnostic β → Prop
  | ok {a : α} {b : β} (value : Value a b) : Agree Value Report (.ok a) (.ok b)
  | error {d e : Diagnostic} (report : Report d e) : Agree Value Report (.error d) (.error e)

namespace Agree

variable {α β γ δ : Type} {Value : α → β → Prop} {Value' : γ → δ → Prop}
  {Report : Diagnostic → Diagnostic → Prop} {x : Except Diagnostic α} {y : Except Diagnostic β}

theorem bind {f : α → Except Diagnostic γ} {g : β → Except Diagnostic δ}
    (h : Agree Value Report x y) (hnext : ∀ a b, Value a b → Agree Value' Report (f a) (g b)) :
    Agree Value' Report (x >>= f) (y >>= g) := by
  cases h with
  | ok value => exact hnext _ _ value
  | error report => exact .error report

theorem map {f : α → γ} {g : β → δ} (h : Agree Value Report x y)
    (hvalue : ∀ a b, Value a b → Value' (f a) (g b)) :
    Agree Value' Report (x.map f) (y.map g) := by
  cases h with
  | ok value => exact .ok (hvalue _ _ value)
  | error report => exact .error report

theorem mapM {f : γ → Except Diagnostic α} {g : δ → Except Diagnostic β} {as : List γ} {bs : List δ}
    (h : Forall₂ (fun a b => Agree Value Report (f a) (g b)) as bs) :
    Agree (Forall₂ Value) Report (as.mapM f) (bs.mapM g) := by
  induction h with
  | nil => exact .ok .nil
  | cons hfirst _ ih =>
      rw [List.mapM_cons, List.mapM_cons]
      exact hfirst.bind fun _ _ hvalue => ih.bind fun _ _ hvalues => .ok (.cons hvalue hvalues)

theorem mono {Value' : α → β → Prop} (h : Agree Value Report x y)
    (hvalue : ∀ a b, Value a b → Value' a b) : Agree Value' Report x y := by
  cases h with
  | ok value => exact .ok (hvalue _ _ value)
  | error report => exact .error report

/-- One succeeds if the other does. -/
theorem exists_ok_iff (h : Agree Value Report x y) : (∃ a, x = .ok a) ↔ ∃ b, y = .ok b := by
  cases h with
  | ok value => exact ⟨fun _ => ⟨_, rfl⟩, fun _ => ⟨_, rfl⟩⟩
  | error report => exact ⟨fun ⟨_, h⟩ => (nomatch h), fun ⟨_, h⟩ => (nomatch h)⟩

theorem of_ok {a : α} {b : β} (h : Agree Value Report (.ok a) (.ok b)) : Value a b := by
  cases h with
  | ok value => exact value

end Agree

theorem map_eq_map_of_forall₂ {α β : Type} {f : α → β} {as bs : List α}
    (h : Forall₂ (fun a b => f a = f b) as bs) : as.map f = bs.map f := by
  rw [← List.forall₂_eq_eq_eq]
  exact List.forall₂_map_left_iff.mpr (List.forall₂_map_right_iff.mpr h)

/-! ### Names and data put into other words -/

section reword

variable (name : String → String) (data : Bytes → Bytes)

/-- The statement with other names and data. -/
def Statement.reword : Statement → Statement
  | .label text => .label (name text)
  | .mode bits => .mode bits
  | .enter text => .enter (name text)
  | .imports names => .imports (names.map name)
  | .exports names => .exports (names.map name)
  | .data values => .data (values.map data)
  | .instruction mnemonic operands => .instruction mnemonic operands

/-- The entry with another name or other data.  An instruction stays as it is. -/
def SectionEntry.reword : SectionEntry → SectionEntry
  | .instruction i => .instruction i
  | .data bytes => .data (data bytes)
  | .label text => .label (name text)

/-- The part of a listing with other names and data. -/
def Directive.reword : Directive → Directive
  | .importSymbol text => .importSymbol (name text)
  | .exportSymbol text => .exportSymbol (name text)
  | .sectionBlock text entries => .sectionBlock (name text) (entries.map (.reword name data))

/-- The listing with other names and data. -/
def Listing.reword (l : Listing) : Listing := ⟨l.directives.map (.reword name data)⟩

namespace Listing

/-- The draft with other names and data. -/
def Draft.reword (d : Draft) : Draft where
  bits := d.bits
  placed := d.placed.map (.reword name data)
  current := d.current.map fun open' => (name open'.1, open'.2.map (.reword name data))

namespace Draft

variable {name data} (hempty : ∀ text, (name text).isEmpty = text.isEmpty) (d : Draft)

theorem reword_declare (make : String → Directive) (names : List String)
    (hmake : ∀ text, (make text).reword name data = make (name text)) :
    reword name data { d with placed := d.placed ++ names.map make } =
      { d.reword name data with
        placed := (d.reword name data).placed ++ (names.map name).map make } := by
  have hplaced : (d.placed ++ names.map make).map (Directive.reword name data) =
      d.placed.map (Directive.reword name data) ++ (names.map name).map make := by
    apply Array.toList_inj.mp
    simp [hmake]
  simp only [reword, hplaced]

include hempty

theorem reword_addEntry (entry : SectionEntry) :
    (d.addEntry entry).reword name data =
      (d.reword name data).addEntry (entry.reword name data) := by
  have hunnamed : name "" = "" := String.isEmpty_iff.mp (hempty "")
  obtain ⟨bits, placed, current⟩ := d
  cases current with
  | none => simp [addEntry, reword, hunnamed]
  | some current => simp [addEntry, reword]

theorem reword_leave : d.leave.reword name data = (d.reword name data).leave := by
  obtain ⟨bits, placed, current⟩ := d
  cases current with
  | none => rfl
  | some current =>
      obtain ⟨text, entries⟩ := current
      have hentries : (entries.map (SectionEntry.reword name data)).isEmpty = entries.isEmpty := by
        rw [Array.isEmpty, Array.size_map]
        rfl
      simp only [leave, reword, Option.map_some, hempty, hentries]
      split
      · rfl
      · simp [Directive.reword]

theorem reword_addData (values : List Bytes) :
    (values.foldl (fun d bytes => d.addEntry (.data bytes)) d).reword name data =
      (values.map data).foldl (fun d bytes => d.addEntry (.data bytes)) (d.reword name data) := by
  induction values generalizing d with
  | nil => rfl
  | cons bytes values ih =>
      rw [List.foldl_cons, ih, reword_addEntry hempty]
      rfl

theorem reword_add (st : Statement) :
    (d.add st).reword name data = (d.reword name data).add (st.reword name data) := by
  cases st with
  | label text => exact d.reword_addEntry hempty (.label text)
  | mode bits => rfl
  | enter text =>
      simp only [add, Statement.reword, ← d.reword_leave hempty]
      simp [reword]
  | imports names => exact d.reword_declare _ names fun _ => rfl
  | exports names => exact d.reword_declare _ names fun _ => rfl
  | data values => exact d.reword_addData hempty values
  | instruction mnemonic operands => exact d.reword_addEntry hempty (.instruction _)

theorem reword_foldl (sts : List Statement) : (sts.foldl add d).reword name data =
    (sts.map (.reword name data)).foldl add (d.reword name data) := by
  induction sts generalizing d with
  | nil => rfl
  | cons st sts ih =>
      rw [List.foldl_cons, ih, reword_add hempty]
      rfl

end Draft

variable {name data}

/-- In other words, statements make the same listing in other words, if only the empty name stays
empty. -/
theorem reword_ofStatements (hempty : ∀ text, (name text).isEmpty = text.isEmpty)
    (sts : List Statement) :
    (ofStatements sts).reword name data = ofStatements (sts.map (.reword name data)) := by
  have hstart : Draft.reword name data {} = {} := by simp [Draft.reword]
  have hdraft : (sts.foldl Draft.add {}).leave.reword name data = _ := Draft.reword_leave hempty _
  rw [Draft.reword_foldl hempty, hstart] at hdraft
  rw [ofStatements, ofStatements, ← hdraft]
  exact congrArg Listing.mk Array.toList_map.symm

end Listing

end reword

/-! ### Likeness of tokens -/

/-- When names, data and reports count as alike.  A name is read by its letters in lower case, and is
written out as data by its bytes. -/
structure Likeness where
  /-- The form of a text in which it is compared. -/
  name : String → String
  /-- The form of data in which it is compared. -/
  data : Bytes → Bytes
  /-- Reports that are alike. -/
  Report : Diagnostic → Diagnostic → Prop
  toLower_of_name : ∀ {a b : String}, name a = name b → a.toLower = b.toLower
  data_of_name : ∀ {a b : String}, name a = name b →
    data (Bytes.ofString a) = data (Bytes.ofString b)
  isEmpty_name : ∀ text, (name text).isEmpty = text.isEmpty
  /-- What is complained about a token follows from its kind and text. -/
  complaint : ∀ {a b : String}, name a = name b → ∀ (f : String → Complaint) (s s' : Span),
    Report (.complain (f a) s) (.complain (f b) s')
  tooWide : ∀ (value : Int) (width : UInt8) (s s' : Span),
    Report (.dataOverflow value width s) (.dataOverflow value width s')

namespace Likeness

variable (L : Likeness)

/-- Tokens of the same kind whose texts are alike. -/
structure Tokens (t u : Token) : Prop where
  kind : t.kind = u.kind
  text : L.name t.text = L.name u.text

/-- Segments whose tokens are alike. -/
structure Segments (s s' : Segment) : Prop where
  tokens : Forall₂ L.Tokens s.tokens s'.tokens
  stop : L.Tokens s.stop s'.stop

/-- Statements that are the same but for the names and data in them, which are alike. -/
def Statements (st st' : Statement) : Prop :=
  st.reword L.name L.data = st'.reword L.name L.data

/-- Listings that are the same but for the names and data in them, which are alike. -/
def Listings (l l' : Listing) : Prop := l.reword L.name L.data = l'.reword L.name L.data

variable {L} {t u : Token} {s s' : Segment}

/-! ### Readers of one token -/

section tokens

variable (h : L.Tokens t u)

include h

theorem Tokens.unexpected (hoped : Expectation) :
    L.Report (t.unexpected hoped) (u.unexpected hoped) := by
  obtain ⟨kind, text, span⟩ := t
  obtain ⟨kind', text', span'⟩ := u
  obtain ⟨rfl : kind = kind', htext⟩ := h
  exact L.complaint htext (fun text => .expected hoped (Token.found ⟨kind, text, span⟩)) span span'

theorem Tokens.register : Agree Eq L.Report t.register u.register := by
  have hname : Register.parse? t.text = Register.parse? u.text := by
    simp only [Register.parse?, L.toLower_of_name h.text]
  unfold Token.register
  rw [hname]
  split
  · exact .ok rfl
  · exact .error (L.complaint h.text .notARegister _ _)

theorem Tokens.constant (value : Int) : Agree Eq L.Report (t.constant value) (u.constant value) := by
  unfold Token.constant
  split
  · exact .ok rfl
  · exact .error (L.complaint h.text (fun _ => .immediateTooWide value) _ _)

theorem Tokens.displacement (value : Int) :
    Agree Eq L.Report (t.displacement value) (u.displacement value) := by
  unfold Token.displacement
  split
  · exact .ok rfl
  · exact .error (L.complaint h.text (fun _ => .displacementTooWide value) _ _)

theorem Tokens.address : Agree Eq L.Report t.address u.address := by
  unfold Token.address
  rw [← h.kind]
  split
  · exact h.register.map fun _ _ hr => by rw [hr]
  · exact (h.displacement _).map fun _ _ hd => by rw [hd]
  · exact .error (h.unexpected _)

theorem Tokens.dataBytes (width : UInt8) :
    Agree (fun a b => L.data a = L.data b) L.Report (t.dataBytes width) (u.dataBytes width) := by
  unfold Token.dataBytes
  rw [← h.kind]
  split
  · exact .ok (L.data_of_name h.text)
  · split
    · exact .ok rfl
    · exact .error (L.tooWide _ _ _ _)
  · exact .error (h.unexpected _)

theorem Tokens.mode : Agree Eq L.Report t.mode u.mode := by
  unfold Token.mode
  rw [← h.kind]
  split
  · exact .ok rfl
  · exact .ok rfl
  · exact .ok rfl
  · exact .error (L.complaint h.text .badMode _ _)

theorem Tokens.name_agree :
    Agree (fun a b => L.name a = L.name b) L.Report t.name u.name := by
  unfold Token.name
  rw [← h.kind]
  split
  · exact .ok h.text
  · exact .error (h.unexpected _)

end tokens

/-! ### Readers of segments -/

section segments

variable (h : L.Segments s s')

include h

theorem Segments.head : L.Tokens s.head s'.head := by
  obtain ⟨tokens, stop⟩ := s
  obtain ⟨tokens', stop'⟩ := s'
  obtain ⟨htokens, hstop⟩ := h
  cases htokens with
  | nil => exact hstop
  | cons ht _ => exact ht

theorem Segments.tail : L.Segments s.tail s'.tail := by
  obtain ⟨tokens, stop⟩ := s
  obtain ⟨tokens', stop'⟩ := s'
  obtain ⟨htokens, hstop⟩ := h
  cases htokens with
  | nil => exact ⟨.nil, hstop⟩
  | cons _ hrest => exact ⟨hrest, hstop⟩

theorem Segments.splitOn (separator : TokenKind) :
    Forall₂ L.Segments (s.splitOn separator) (s'.splitOn separator) := by
  obtain ⟨tokens, stop⟩ := s
  obtain ⟨tokens', stop'⟩ := s'
  obtain ⟨htokens, hstop⟩ := h
  dsimp only at htokens hstop
  induction htokens with
  | nil => exact .cons ⟨.nil, hstop⟩ .nil
  | @cons t u ts us ht _ ih =>
      by_cases hkind : t.kind = separator
      · rw [Segment.splitOn_cons_separator hkind,
          Segment.splitOn_cons_separator (ht.kind.symm.trans hkind)]
        exact .cons ⟨.nil, ht⟩ ih
      · obtain ⟨first, others, e⟩ :=
          List.exists_cons_of_ne_nil (Segment.splitOn_ne_nil separator ⟨ts, stop⟩)
        rw [e] at ih
        obtain ⟨first', others', hfirst, hothers, e'⟩ := List.forall₂_cons_left_iff.mp ih
        rw [Segment.splitOn_cons_other hkind e,
          Segment.splitOn_cons_other (fun hk => hkind (ht.kind.trans hk)) e']
        exact .cons ⟨.cons ht hfirst.tokens, hfirst.stop⟩ hothers

theorem Segments.complete {α : Type} {Value : α → α → Prop} {a b : α} (hvalue : Value a b) :
    Agree Value L.Report (s.complete a) (s'.complete b) := by
  obtain ⟨tokens, stop⟩ := s
  obtain ⟨tokens', stop'⟩ := s'
  obtain ⟨htokens, hstop⟩ := h
  cases htokens with
  | nil => exact .ok hvalue
  | cons ht _ => exact .error (ht.unexpected _)

theorem Segments.only {α : Type} {Value : α → α → Prop} {f : Token → Except Diagnostic α}
    (hf : ∀ {t u : Token}, L.Tokens t u → Agree Value L.Report (f t) (f u)) :
    Agree Value L.Report (s.only f) (s'.only f) :=
  (hf h.head).bind fun _ _ hvalue => h.tail.complete hvalue

theorem Segments.mapM {α : Type} {Value : α → α → Prop} {read : Segment → Except Diagnostic α}
    (separator : TokenKind)
    (hread : ∀ {s s' : Segment}, L.Segments s s' → Agree Value L.Report (read s) (read s')) :
    Agree (Forall₂ Value) L.Report ((s.splitOn separator).mapM read)
      ((s'.splitOn separator).mapM read) :=
  .mapM ((h.splitOn separator).imp fun _ _ hseg => hread hseg)

theorem Segments.operand : Agree Eq L.Report s.operand s'.operand := by
  unfold Segment.operand
  rw [← h.head.kind]
  split
  · exact (h.head.constant _).bind fun _ _ hc => h.tail.complete (by rw [hc])
  · exact h.head.register.bind fun _ _ hr => h.tail.complete (by rw [hr])
  · refine h.tail.head.address.bind fun _ _ ha => ?_
    rw [← h.tail.tail.head.kind]
    split
    · exact h.tail.tail.tail.complete (by rw [ha])
    · exact .error (h.tail.tail.head.unexpected _)
  · exact .error (h.head.unexpected _)

theorem Segments.operands : Agree Eq L.Report s.operands s'.operands := by
  have hempty : s.tokens.isEmpty = s'.tokens.isEmpty := by
    rw [Bool.eq_iff_iff, List.isEmpty_iff_length_eq_zero, List.isEmpty_iff_length_eq_zero,
      h.tokens.length_eq]
  unfold Segment.operands
  rw [← hempty]
  split
  · exact .ok rfl
  · refine (h.mapM .comma fun hseg => hseg.operand).mono ?_
    exact fun as bs hoperands => List.forall₂_eq_eq_eq ▸ hoperands

theorem Segments.names :
    Agree (fun as bs => as.map L.name = bs.map L.name) L.Report s.names s'.names := by
  refine (h.mapM .comma fun hseg => hseg.only fun ht => ht.name_agree).mono ?_
  exact fun as bs hnames => map_eq_map_of_forall₂ hnames

theorem Segments.dataValues (width : UInt8) :
    Agree (fun as bs => as.map L.data = bs.map L.data) L.Report (s.dataValues width)
      (s'.dataValues width) := by
  refine (h.mapM .comma fun hseg => hseg.only fun ht => ht.dataBytes width).mono ?_
  exact fun as bs hvalues => map_eq_map_of_forall₂ hvalues

theorem Segments.statement (hword : L.Tokens t u) :
    Agree L.Statements L.Report (Segment.statement t s) (Segment.statement u s') := by
  have hlower : t.text.toLower = u.text.toLower := L.toLower_of_name hword.text
  unfold Segment.statement
  rw [← hlower]
  split
  · exact (h.only fun ht => ht.mode).map fun _ _ hbits => by rw [hbits]; rfl
  · exact (h.only fun ht => ht.name_agree).map fun _ _ hname => congrArg Statement.enter hname
  · exact h.names.map fun _ _ hnames => congrArg Statement.imports hnames
  · exact h.names.map fun _ _ hnames => congrArg Statement.exports hnames
  · exact (h.dataValues _).map fun _ _ hvalues => congrArg Statement.data hvalues
  · exact h.operands.map fun _ _ hoperands => by rw [hoperands]; rfl

end segments

theorem Segments.lineStatements (h : L.Segments s s') :
    Agree (Forall₂ L.Statements) L.Report (Segment.lineStatements s.stop s.tokens)
      (Segment.lineStatements s'.stop s'.tokens) := by
  obtain ⟨tokens, stop⟩ := s
  obtain ⟨tokens', stop'⟩ := s'
  obtain ⟨htokens, hstop⟩ := h
  dsimp only at htokens hstop ⊢
  induction htokens with
  | nil => exact .ok .nil
  | @cons t u ts us ht hrest ih =>
      have hseg : L.Segments ⟨ts, stop⟩ ⟨us, stop'⟩ := ⟨hrest, hstop⟩
      unfold Segment.lineStatements
      rw [← ht.kind]
      split
      · exact ih.map fun _ _ hothers => .cons (congrArg Statement.label ht.text) hothers
      · exact (hseg.statement ht).map fun _ _ hst => .cons hst .nil
      · exact .error (ht.unexpected _)

theorem Segments.statements (h : L.Segments s s') :
    Agree (Forall₂ L.Statements) L.Report s.statements s'.statements :=
  (h.mapM .newline fun hline => hline.lineStatements).map fun _ _ hlines => List.rel_flatten hlines

/-! ### Readers of token sequences -/

section sequences

variable {ts us : List Token} (h : Forall₂ L.Tokens ts us)

include h

theorem forall₂_takeWhile (kind : TokenKind) :
    Forall₂ L.Tokens (ts.takeWhile (·.kind ≠ kind)) (us.takeWhile (·.kind ≠ kind)) := by
  induction h with
  | nil => exact .nil
  | @cons t u ts us ht _ ih =>
      rw [List.takeWhile_cons, List.takeWhile_cons, ← ht.kind]
      split
      · exact .cons ht ih
      · exact .nil

theorem rel_find? (kind : TokenKind) :
    Option.Rel L.Tokens (ts.find? (·.kind = kind)) (us.find? (·.kind = kind)) := by
  induction h with
  | nil => exact .none
  | @cons t u ts us ht _ ih =>
      rw [List.find?_cons, List.find?_cons, ← ht.kind]
      split
      · exact .some ht
      · exact ih

theorem rel_getLast? : Option.Rel L.Tokens ts.getLast? us.getLast? := by
  induction h with
  | nil => exact .none
  | @cons t u ts us ht hrest ih =>
      cases hrest with
      | nil => exact .some ht
      | cons _ _ => exact ih

theorem rel_ofTokens? : Option.Rel L.Segments (Segment.ofTokens? ts) (Segment.ofTokens? us) := by
  have hlast := rel_getLast? h
  have heof := rel_find? h .eof
  unfold Segment.ofTokens?
  generalize ts.getLast? = last at hlast
  generalize us.getLast? = last' at hlast
  generalize ts.find? (·.kind = .eof) = eof at heof
  generalize us.find? (·.kind = .eof) = eof' at heof
  cases hlast with
  | none => exact .none
  | some hlast =>
      refine .some ⟨forall₂_takeWhile h .eof, ?_⟩
      cases heof with
      | none => exact hlast
      | some heof => exact heof

theorem agree_readStatements :
    Agree (Forall₂ L.Statements) L.Report (readStatements ts) (readStatements us) := by
  have hseg := rel_ofTokens? h
  unfold readStatements
  generalize Segment.ofTokens? ts = s at hseg
  generalize Segment.ofTokens? us = s' at hseg
  cases hseg with
  | none => exact .ok .nil
  | some hs => exact hs.statements

/-- Alike tokens spell listings that are alike, or none, for causes that are alike. -/
theorem agree_ofTokens : Agree L.Listings L.Report (Listing.ofTokens ts) (Listing.ofTokens us) := by
  refine (agree_readStatements h).map fun sts sts' hsts => ?_
  unfold Listings
  rw [Listing.reword_ofStatements L.isEmpty_name, Listing.reword_ofStatements L.isEmpty_name,
    map_eq_map_of_forall₂ hsts]

end sequences

end Likeness

/-! ### Tokens that stand elsewhere -/

/-- The report with another place, if it has one. -/
def Diagnostic.withSpan (span : Span) : Diagnostic → Diagnostic
  | malformed message _ => malformed message span
  | dataOverflow value size _ => dataOverflow value size span
  | d => d

/-- Reports that differ at most in the place they point at. -/
def Diagnostic.SameElsewhere (d e : Diagnostic) : Prop := ∃ span, d = e.withSpan span

/-- Names and data are to be the same, and reports to differ at most in their places. -/
def Likeness.upToPlaces : Likeness where
  name := id
  data := id
  Report := Diagnostic.SameElsewhere
  toLower_of_name h := congrArg String.toLower h
  data_of_name h := congrArg Bytes.ofString h
  isEmpty_name _ := rfl
  complaint h f s _ := ⟨s, congrArg (Diagnostic.complain · s) (congrArg f h)⟩
  tooWide _ _ s _ := ⟨s, rfl⟩

/-- Tokens of the same kind and text, wherever they stand. -/
abbrev Token.Alike : Token → Token → Prop := Likeness.upToPlaces.Tokens

theorem Statement.reword_id (st : Statement) : st.reword id id = st := by
  cases st <;> simp [reword]

theorem SectionEntry.reword_id (entry : SectionEntry) : entry.reword id id = entry := by
  cases entry <;> rfl

theorem Directive.reword_id (d : Directive) : d.reword id id = d := by
  cases d with
  | importSymbol text => rfl
  | exportSymbol text => rfl
  | sectionBlock text entries =>
      have hentry : SectionEntry.reword id id = id := funext SectionEntry.reword_id
      rw [reword, hentry, List.map_id]
      rfl

theorem Listing.reword_id (l : Listing) : l.reword id id = l := by
  have hdirective : Directive.reword id id = id := funext Directive.reword_id
  rw [reword, hdirective, List.map_id]

section alike

variable {ts us : List Token} (h : Forall₂ Token.Alike us ts)

include h

theorem readStatements_of_alike {sts : List Statement} (hsts : readStatements ts = .ok sts) :
    readStatements us = .ok sts := by
  have hagree := Likeness.agree_readStatements h
  rw [hsts] at hagree
  obtain ⟨sts', hsts'⟩ := hagree.exists_ok_iff.mpr ⟨sts, rfl⟩
  rw [hsts'] at hagree ⊢
  have hsame : sts'.map (Statement.reword id id) = sts.map (Statement.reword id id) :=
    map_eq_map_of_forall₂ hagree.of_ok
  rw [show Statement.reword id id = id from funext Statement.reword_id, List.map_id,
    List.map_id] at hsame
  rw [hsame]

/-- Tokens that stand elsewhere spell the same listing, or none, for the same cause. -/
theorem Listing.agree_of_alike :
    Agree Eq Diagnostic.SameElsewhere (ofTokens us) (ofTokens ts) := by
  refine (Likeness.agree_ofTokens h).mono fun l l' hl => ?_
  rw [← l.reword_id, ← l'.reword_id]
  exact hl

end alike

end X64Asm
