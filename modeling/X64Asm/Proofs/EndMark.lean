import X64Asm.Proofs.CheckedReader

/-! # End marks

A sequence of tokens is read up to its first end mark.  What stands behind it is never looked at
(`Listing.ofTokens_behind_eof`): wherever a token is taken off the sequence the end mark is refused.

A sequence need not have an end mark.  It stops at its own last token then, and whoever reads on
past it is shown that token once more.  A reader that takes something off a run never asks for more
than the run has, or is refused both by the end mark and by the last token (`Settled`), so the
missing end mark makes no difference.

The exception is a line that ends with a word which a name has to follow (`Dangling`): the word is
taken for the name.  Such a sequence is read as if the word were written twice
(`Listing.ofTokens_without_eof`). -/

namespace X64Asm

namespace Grammar

/-- The words that a name has to follow. -/
def nameWords : List String := ["section", "segment", "global", "extern"]

/-- Label definitions, and then a word without the name that has to follow it. -/
inductive DanglingLine : List Token → Token → Prop
  | word {t : Token} (kind : t.kind = .ident) (named : t.text.toLower ∈ nameWords) :
      DanglingLine [t] t
  | label {t word : Token} {ts : List Token} (kind : t.kind = .labelDef)
      (rest : DanglingLine ts word) : DanglingLine (t :: ts) word

/-- The last line ends with a word without the name that has to follow it. -/
inductive Dangling : List Token → Token → Prop
  | last {ts : List Token} {word : Token} (line : DanglingLine ts word) : Dangling ts word
  | behind {ts rest : List Token} {t word : Token} (free : ∀ u ∈ ts, u.kind ≠ .newline)
      (kind : t.kind = .newline) (others : Dangling rest word) : Dangling (ts ++ t :: rest) word

section dangling

variable {ts : List Token} {word : Token}

theorem DanglingLine.newline_free (h : DanglingLine ts word) :
    ∀ t ∈ ts ++ [word], t.kind ≠ .newline := by
  induction h with
  | word kind => simp [kind]
  | label kind _ ih => exact List.forall_mem_cons.mpr ⟨by simp [kind], ih⟩

theorem DanglingLine.getLast? (h : DanglingLine ts word) : ts.getLast? = some word := by
  induction h with
  | word => rfl
  | label _ rest ih =>
      cases rest with
      | word => exact ih
      | label => exact ih

theorem Dangling.getLast? (h : Dangling ts word) : ts.getLast? = some word := by
  induction h with
  | last line => exact line.getLast?
  | @behind _ rest t _ _ _ _ ih =>
      rw [List.getLast?_append_cons, List.getLast?_cons, ih]
      rfl

theorem DanglingLine.named (h : DanglingLine ts word) :
    word.kind = .ident ∧ word.text.toLower ∈ nameWords := by
  induction h with
  | word kind named => exact ⟨kind, named⟩
  | label _ _ ih => exact ih

theorem Dangling.named (h : Dangling ts word) :
    word.kind = .ident ∧ word.text.toLower ∈ nameWords := by
  induction h with
  | last line => exact line.named
  | behind _ _ _ ih => exact ih

end dangling

end Grammar

open Grammar

namespace Segment

variable {α β : Type} {ts : List Token} {last eof : Token}

/-! ### Readers that do not see the stop -/

/-- The values of a run that stops at its own last token are those of a run that stops at an end
mark. -/
def Settled (read : Segment → Except Diagnostic α) : Prop :=
  ∀ ⦃ts : List Token⦄ ⦃last eof : Token⦄, ts.getLast? = some last → eof.kind = .eof →
    ∀ a, read ⟨ts, last⟩ = .ok a ↔ read ⟨ts, eof⟩ = .ok a

theorem Settled.map {read : Segment → Except Diagnostic α} (h : Settled read) (f : α → β) :
    Settled fun s => (read s).map f := by
  intro ts last eof hlast heof b
  simp only [map_eq_ok, h hlast heof]

theorem settled_only (f : Token → Except Diagnostic α) : Settled fun s => s.only f := by
  intro ts last eof hlast _ a
  cases ts with
  | nil => cases hlast
  | cons t ts => exact Iff.rfl

theorem operand_openBracket {t : Token} (h : t.kind = .openBracket) (ts : List Token)
    (stop : Token) :
    operand ⟨t :: ts, stop⟩ = (do
      let address ← head ⟨ts, stop⟩ |>.address
      if (tail ⟨ts, stop⟩).head.kind = .closeBracket then
        (tail ⟨ts, stop⟩).tail.complete (.memory address)
      else .error ((tail ⟨ts, stop⟩).head.unexpected .closeBracket)) := by
  unfold operand
  simp only [head, List.headD_cons, h]
  rfl

/-- Brackets with one token in them are not closed by that token. -/
theorem operand_ne_ok {t x stop : Token} (h : t.kind = .openBracket)
    (hstop : ∀ a, x.address = .ok a → stop.kind ≠ .closeBracket) (op : Operand) :
    operand ⟨[t, x], stop⟩ ≠ .ok op := by
  rw [operand_openBracket h]
  intro hok
  obtain ⟨a, ha, hok⟩ := bind_eq_ok.mp hok
  have hopen : (tail ⟨[x], stop⟩).head.kind ≠ .closeBracket := hstop a ha
  rw [if_neg hopen] at hok
  cases hok

theorem settled_operand : Settled operand := by
  intro ts last eof hlast heof op
  rcases ts with _ | ⟨t, rest⟩
  · cases hlast
  by_cases hopen : t.kind = .openBracket
  · -- only behind an opening bracket is more than one token read
    rcases rest with _ | ⟨x, _ | ⟨y, more⟩⟩
    · cases hlast
      rw [operand_openBracket hopen, operand_openBracket hopen]
      simp [head, Token.address, hopen, heof, bind, Except.bind]
    · cases hlast
      refine iff_of_false (operand_ne_ok hopen ?_ op) (operand_ne_ok hopen ?_ op)
      · intro a ha
        cases Token.address_eq_ok_iff.mp ha with
        | register kind => simp [kind]
        | number kind => simp [kind]
      · simp [heof]
    · rw [operand_openBracket hopen, operand_openBracket hopen]
      exact Iff.rfl
  · have hsame : operand ⟨t :: rest, last⟩ = operand ⟨t :: rest, eof⟩ := by
      unfold operand
      simp only [head, List.headD_cons]
      split
      · rfl
      · rfl
      · contradiction
      · rfl
    rw [hsame]

theorem mapM_splitOn_nil_ne_ok {separator : TokenKind} {read : Segment → Except Diagnostic α}
    {stop : Token} (h : ∀ a, read ⟨[], stop⟩ ≠ .ok a) (as : List α) :
    (splitOn separator ⟨[], stop⟩).mapM read ≠ .ok as := by
  intro has
  obtain ⟨a, _, ha, _⟩ := mapM_cons_eq_ok.mp has
  exact h a ha

/-- A separator at the end of a run calls for one more part, which is not there. -/
theorem Settled.mapM_splitOn {separator : TokenKind} {read : Segment → Except Diagnostic α}
    (h : Settled read)
    (hnone : ∀ t : Token, t.kind = separator ∨ t.kind = .eof → ∀ a, read ⟨[], t⟩ ≠ .ok a) :
    Settled fun s => (s.splitOn separator).mapM read := by
  intro ts last eof hlast heof as
  induction ts using cut_induction separator generalizing as with
  | free ts hfree => simp only [splitOn_of_free hfree, mapM_cons_eq_ok, h hlast heof]
  | cut first t rest hfree ht ih =>
      simp only [splitOn_append hfree ht, mapM_cons_eq_ok]
      rw [List.getLast?_append_cons] at hlast
      cases rest with
      | nil =>
          cases hlast
          refine iff_of_false ?_ ?_
          · rintro ⟨_, others, _, hothers, _⟩
            exact mapM_splitOn_nil_ne_ok (hnone t (.inl ht)) others hothers
          · rintro ⟨_, others, _, hothers, _⟩
            exact mapM_splitOn_nil_ne_ok (hnone eof (.inr heof)) others hothers
      | cons u rest =>
          rw [List.getLast?_cons_cons] at hlast
          simp only [ih hlast]

/-- A token that delimits is refused where one of a run is needed. -/
theorem only_ne_ok {f : Token → Except Diagnostic α} {t : Token} (h : ∀ a, f t ≠ .ok a) (a : α) :
    only ⟨[], t⟩ f ≠ .ok a := by
  intro hok
  obtain ⟨b, hb, _⟩ := bind_eq_ok.mp hok
  exact h b hb

theorem settled_names : Settled names := by
  refine (settled_only Token.name).mapM_splitOn ?_
  intro t ht
  apply only_ne_ok
  intro name
  rcases ht with hkind | hkind <;> simp [Token.name, hkind]

theorem settled_dataValues (width : UInt8) : Settled (dataValues · width) := by
  refine (settled_only (Token.dataBytes · width)).mapM_splitOn ?_
  intro t ht
  apply only_ne_ok
  intro bytes
  rcases ht with hkind | hkind <;> simp [Token.dataBytes, hkind]

theorem settled_operands : Settled operands := by
  have hparts : Settled fun s => (s.splitOn .comma).mapM operand := by
    refine settled_operand.mapM_splitOn ?_
    intro t ht op
    rcases ht with hkind | hkind <;> simp [operand, head, hkind]
  intro ts last eof hlast heof ops
  have hsome : ts.isEmpty = false := by
    rw [List.isEmpty_eq_false_iff]
    rintro rfl
    cases hlast
  unfold operands
  rw [hsome]
  exact hparts hlast heof ops

theorem settled_statement (word : Token) : Settled (statement word) := by
  unfold statement
  split
  · exact (settled_only _).map _
  · exact (settled_only _).map _
  · exact settled_names.map _
  · exact settled_names.map _
  · exact (settled_dataValues _).map _
  · exact settled_operands.map _

/-! ### Lines -/

section lines

variable {word : Token}

/-- A word that calls for no name is refused where another argument is needed, as the end mark is. -/
theorem statement_alone (hkind : word.kind = .ident) (hword : word.text.toLower ∉ nameWords)
    (heof : eof.kind = .eof) (st : Statement) :
    statement word ⟨[], word⟩ = .ok st ↔ statement word ⟨[], eof⟩ = .ok st := by
  unfold statement
  generalize word.text.toLower = text at hword
  split
  · have hmode : ∀ t : Token, t.kind = .ident ∨ t.kind = .eof → ∀ bits,
        only ⟨[], t⟩ Token.mode ≠ .ok bits := by
      intro t ht
      apply only_ne_ok
      intro bits
      rcases ht with ht | ht <;> simp [Token.mode, ht]
    simp only [map_eq_ok, hmode word (.inl hkind), hmode eof (.inr heof)]
  · next hkeyword =>
    rcases word_of_keyword hkeyword with rfl | rfl <;> simp [nameWords] at hword
  · next hkeyword =>
    obtain rfl : text = "extern" := word_of_keyword hkeyword
    simp [nameWords] at hword
  · next hkeyword =>
    obtain rfl : text = "global" := word_of_keyword hkeyword
    simp [nameWords] at hword
  · next width _ =>
    have hdata : ∀ t : Token, t.kind = .ident ∨ t.kind = .eof → ∀ values,
        dataValues ⟨[], t⟩ width ≠ .ok values := by
      intro t ht
      apply mapM_splitOn_nil_ne_ok
      apply only_ne_ok
      intro bytes
      rcases ht with ht | ht <;> simp [Token.dataBytes, ht]
    simp only [map_eq_ok, hdata word (.inl hkind), hdata eof (.inr heof)]
  · exact Iff.rfl

theorem lineStatements_settled (hlast : ts.getLast? = some last) (hline : ¬ DanglingLine ts last)
    (heof : eof.kind = .eof) (sts : List Statement) :
    lineStatements last ts = .ok sts ↔ lineStatements eof ts = .ok sts := by
  induction ts generalizing sts with
  | nil => cases hlast
  | cons t ts ih =>
      rw [lineStatements, lineStatements]
      split
      · next hkind =>
        cases ts with
        | nil => exact Iff.rfl
        | cons u ts =>
            rw [List.getLast?_cons_cons] at hlast
            simp only [map_eq_ok, ih hlast fun hrest => hline (.label hkind hrest)]
      · next hkind =>
        cases ts with
        | nil =>
            cases hlast
            have hword : t.text.toLower ∉ nameWords := fun hword => hline (.word hkind hword)
            simp only [map_eq_ok, List.getLast_singleton, statement_alone hkind hword heof]
        | cons u ts =>
            rw [List.getLast?_cons_cons] at hlast
            simp only [map_eq_ok, settled_statement t hlast heof]
      · exact Iff.rfl

theorem statement_of_nameWord (hword : word.text.toLower ∈ nameWords) :
    (statement word = fun s => (s.only Token.name).map .enter) ∨
      ∃ f, statement word = fun s => s.names.map f := by
  simp only [nameWords, List.mem_cons, List.not_mem_nil, or_false] at hword
  unfold statement
  rcases hword with hword | hword | hword | hword
  · rw [hword]
    exact .inl rfl
  · rw [hword]
    exact .inl rfl
  · rw [hword]
    exact .inr ⟨.exports, rfl⟩
  · rw [hword]
    exact .inr ⟨.imports, rfl⟩

/-- A word that calls for a name takes itself for it. -/
theorem statement_dangling (hkind : word.kind = .ident) (hword : word.text.toLower ∈ nameWords)
    (heof : eof.kind = .eof) :
    (∀ st, statement word ⟨[], eof⟩ ≠ .ok st) ∧
      statement word ⟨[], word⟩ = statement word ⟨[word], eof⟩ := by
  have hname : ∀ name, only ⟨[], eof⟩ Token.name ≠ .ok name :=
    only_ne_ok fun name => by simp [Token.name, heof]
  have hsame : names ⟨[], word⟩ = names ⟨[word], eof⟩ := by
    unfold names
    rw [@splitOn_of_free .comma eof [word] (by simp [hkind])]
    rfl
  rcases statement_of_nameWord hword with hstatement | ⟨f, hstatement⟩
  · rw [hstatement]
    exact ⟨map_ne_ok hname, rfl⟩
  · rw [hstatement]
    exact ⟨map_ne_ok (mapM_splitOn_nil_ne_ok hname), congrArg _ hsame⟩

theorem lineStatements_dangling (h : DanglingLine ts word) (heof : eof.kind = .eof) :
    (∀ sts, lineStatements eof ts ≠ .ok sts) ∧
      lineStatements word ts = lineStatements eof (ts ++ [word]) := by
  induction h with
  | word kind named =>
      obtain ⟨hnone, hsame⟩ := statement_dangling kind named heof
      simp only [List.singleton_append, lineStatements, kind]
      exact ⟨map_ne_ok hnone, by rw [hsame]⟩
  | label kind rest ih =>
      simp only [List.cons_append, lineStatements, kind]
      exact ⟨map_ne_ok ih.1, by rw [ih.2]⟩

/-! ### Sequences -/

theorem statements_append_eq_ok_iff {t stop : Token} {first rest : List Token}
    (hfree : ∀ u ∈ first, u.kind ≠ .newline) (ht : t.kind = .newline) {sts : List Statement} :
    statements ⟨first ++ t :: rest, stop⟩ = .ok sts ↔
      ∃ line others, lineStatements t first = .ok line ∧ statements ⟨rest, stop⟩ = .ok others ∧
        line ++ others = sts := by
  rw [Checked.statements_append hfree ht]
  constructor
  · intro h
    obtain ⟨line, hline, h⟩ := bind_eq_ok.mp h
    obtain ⟨others, hothers, h⟩ := bind_eq_ok.mp h
    cases h
    exact ⟨line, others, hline, hothers, rfl⟩
  · rintro ⟨line, others, hline, hothers, rfl⟩
    exact bind_eq_ok.mpr ⟨line, hline, bind_eq_ok.mpr ⟨others, hothers, rfl⟩⟩

theorem statements_settled (hlast : ts.getLast? = some last) (h : ¬ Dangling ts last)
    (heof : eof.kind = .eof) (sts : List Statement) :
    statements ⟨ts, last⟩ = .ok sts ↔ statements ⟨ts, eof⟩ = .ok sts := by
  induction ts using cut_induction .newline generalizing sts with
  | free ts hfree =>
      rw [Checked.statements_of_free hfree, Checked.statements_of_free hfree]
      exact lineStatements_settled hlast (fun hline => h (.last hline)) heof sts
  | cut first t rest hfree ht ih =>
      simp only [statements_append_eq_ok_iff hfree ht]
      cases rest with
      | nil => exact Iff.rfl
      | cons u rest =>
          rw [List.getLast?_append_cons, List.getLast?_cons_cons] at hlast
          simp only [ih hlast fun hrest => h (.behind hfree ht hrest)]

theorem statements_dangling (h : Dangling ts word) (heof : eof.kind = .eof) :
    (∀ sts, statements ⟨ts, eof⟩ ≠ .ok sts) ∧
      ∀ sts, statements ⟨ts, word⟩ = .ok sts ↔ statements ⟨ts ++ [word], eof⟩ = .ok sts := by
  induction h with
  | @last ts word line =>
      have hfree := line.newline_free
      have hahead : ∀ t ∈ ts, t.kind ≠ .newline := fun t ht => hfree t (List.mem_append_left _ ht)
      obtain ⟨hnone, hsame⟩ := lineStatements_dangling line heof
      rw [Checked.statements_of_free hahead, Checked.statements_of_free hahead,
        Checked.statements_of_free hfree, hsame]
      exact ⟨hnone, fun sts => Iff.rfl⟩
  | behind free kind _ ih =>
      constructor
      · intro sts h
        obtain ⟨_, others, _, h, _⟩ := (statements_append_eq_ok_iff free kind).mp h
        exact ih.1 others h
      · intro sts
        rw [List.append_assoc, List.cons_append]
        simp only [statements_append_eq_ok_iff free kind, ih.2]

end lines

end Segment

theorem readStatements_append_eof {ts rest : List Token} {eof : Token}
    (hts : ∀ t ∈ ts, t.kind ≠ .eof) (heof : eof.kind = .eof) :
    readStatements (ts ++ eof :: rest) = Segment.statements ⟨ts, eof⟩ := by
  rw [readStatements, Segment.ofTokens?_append_eof hts heof]

theorem readStatements_of_free {ts : List Token} {last : Token} (hts : ∀ t ∈ ts, t.kind ≠ .eof)
    (hlast : ts.getLast? = some last) : readStatements ts = Segment.statements ⟨ts, last⟩ := by
  have htake : ts.takeWhile (·.kind ≠ .eof) = ts := by
    rw [List.takeWhile_eq_self_iff]
    simpa using hts
  have hfind : ts.find? (·.kind = .eof) = none := by
    rw [List.find?_eq_none]
    simpa using hts
  rw [readStatements, Segment.ofTokens?, htake, hfind, hlast]
  rfl

/-- Without an end mark a sequence spells the listing that it spells with one, unless its last line
lacks a name.  That line is never in order with the end mark, and spells the listing of the line with
its last word written twice without it. -/
theorem Listing.ofTokens_without_eof {ts : List Token} {eof : Token}
    (hts : ∀ t ∈ ts, t.kind ≠ .eof) (heof : eof.kind = .eof) (l : Listing) :
    ((¬ ∃ word, Dangling ts word) → (ofTokens ts = .ok l ↔ ofTokens (ts ++ [eof]) = .ok l)) ∧
      ∀ word, Dangling ts word → ofTokens (ts ++ [eof]) ≠ .ok l ∧
        (ofTokens ts = .ok l ↔ ofTokens (ts ++ [word, eof]) = .ok l) := by
  unfold ofTokens
  rw [readStatements_append_eof hts heof]
  cases hlast : ts.getLast? with
  | none =>
      cases List.getLast?_eq_none_iff.mp hlast
      refine ⟨fun _ => Iff.rfl, ?_⟩
      intro word hword
      cases hword.getLast?
  | some last =>
      rw [readStatements_of_free hts hlast]
      constructor
      · intro hnone
        simp only [map_eq_ok, Segment.statements_settled hlast (fun h => hnone ⟨_, h⟩) heof]
      · intro word hword
        obtain rfl : last = word := Option.some.inj (hlast.symm.trans hword.getLast?)
        have htwice : ∀ t ∈ ts ++ [last], t.kind ≠ .eof := by
          rw [List.forall_mem_append, List.forall_mem_singleton]
          exact ⟨hts, hts last (List.mem_of_getLast? hlast)⟩
        obtain ⟨hnone, hsame⟩ := Segment.statements_dangling hword heof
        rw [List.append_cons ts last [eof], readStatements_append_eof htwice heof]
        refine ⟨map_ne_ok hnone l, ?_⟩
        simp only [map_eq_ok, hsame]

/-- Two lines, the last of which is a mnemonic without operands. -/
def unmarkedTokens : List Token :=
  [⟨.labelDef, "a", ⟨1, 1, 0, 2⟩⟩, ⟨.ident, "global", ⟨1, 4, 3, 6⟩⟩, ⟨.ident, "a", ⟨1, 11, 10, 1⟩⟩,
    ⟨.newline, "\n", ⟨1, 12, 11, 1⟩⟩, ⟨.ident, "ret", ⟨2, 1, 12, 3⟩⟩]

theorem Listing.ofTokens_without_eof_unmarkedTokens : ∃ l,
    ofTokens (unmarkedTokens ++ [⟨.eof, "", ⟨2, 4, 15, 0⟩⟩]) = .ok l ∧
    ofTokens unmarkedTokens = .ok l := by
  have hmarked : ofTokens (unmarkedTokens ++ [⟨.eof, "", ⟨2, 4, 15, 0⟩⟩]) =
      .ok ⟨[.exportSymbol "a", .sectionBlock "" [.label "a", .instruction ⟨64, "ret", []⟩]]⟩ := by
    decide +kernel
  have hnone : ¬ ∃ word, Dangling unmarkedTokens word := by
    rintro ⟨word, h⟩
    cases h.getLast?
    exact absurd h.named.2 (by decide +kernel)
  have hfree : ∀ t ∈ unmarkedTokens, t.kind ≠ .eof := by decide
  exact ⟨_, hmarked, ((ofTokens_without_eof hfree rfl _).1 hnone).mpr hmarked⟩

/-- The word for an import, alone: an import of its own name, unless the end mark follows. -/
theorem Listing.ofTokens_bare_import :
    ofTokens [⟨.ident, "extern", ⟨1, 1, 0, 6⟩⟩] = .ok ⟨[.importSymbol "extern"]⟩ ∧
    ofTokens [⟨.ident, "extern", ⟨1, 1, 0, 6⟩⟩, ⟨.eof, "", ⟨1, 7, 6, 0⟩⟩] ≠
      .ok ⟨[.importSymbol "extern"]⟩ := by
  decide +kernel

/-! ### Behind the end mark -/

/-- A sequence with an end mark has a first one. -/
theorem exists_first_eof {tokens : List Token} {eof : Token} (hmem : eof ∈ tokens)
    (heof : eof.kind = .eof) : ∃ ahead first behind, tokens = ahead ++ first :: behind ∧
      (∀ t ∈ ahead, t.kind ≠ .eof) ∧ first.kind = .eof := by
  induction tokens with
  | nil => cases hmem
  | cons t tokens ih =>
      by_cases ht : t.kind = .eof
      · exact ⟨[], t, tokens, rfl, by simp, ht⟩
      · obtain hfirst | hmem := List.mem_cons.mp hmem
        · exact absurd (hfirst ▸ heof) ht
        · obtain ⟨ahead, first, behind, rfl, hahead, hfirst⟩ := ih hmem
          exact ⟨t :: ahead, first, behind, rfl, List.forall_mem_cons.mpr ⟨ht, hahead⟩, hfirst⟩

theorem Listing.ofTokens_append_eof {ts rest : List Token} {eof : Token}
    (hts : ∀ t ∈ ts, t.kind ≠ .eof) (heof : eof.kind = .eof) :
    ofTokens (ts ++ eof :: rest) = (Segment.statements ⟨ts, eof⟩).map ofStatements := by
  rw [ofTokens, readStatements_append_eof hts heof]

/-- What stands behind an end mark makes no difference, neither to the listing nor to the report.
The reader by index, which could step over the end mark as over any other token, does not do so
either. -/
theorem Listing.ofTokens_behind_eof (ts rest : List Token) {eof : Token} (heof : eof.kind = .eof) :
    ofTokens (ts ++ [eof] ++ rest) = ofTokens (ts ++ [eof]) ∧
      Checked.readListing (ts ++ [eof] ++ rest) = Checked.readListing (ts ++ [eof]) ∧
      Checked.readListing (ts ++ [eof]) = Checked.ofExcept (ofTokens (ts ++ [eof])) := by
  have hmem : eof ∈ ts ++ [eof] := List.mem_append_right ts List.mem_cons_self
  obtain ⟨ahead, first, behind, hfirst, hahead, hkind⟩ := exists_first_eof hmem heof
  rw [hfirst, List.append_assoc, List.cons_append]
  have hsame : ofTokens (ahead ++ first :: (behind ++ rest)) =
      ofTokens (ahead ++ first :: behind) := by
    rw [ofTokens_append_eof hahead hkind, ofTokens_append_eof hahead hkind]
  refine ⟨hsame, ?_, Checked.readListing_eq hahead hkind⟩
  rw [Checked.readListing_eq hahead hkind, Checked.readListing_eq hahead hkind, hsame]

/-- A bracket that is not closed ahead of the end mark is not closed by one behind it. -/
theorem Listing.ofTokens_behind_eof_openBracket :
    ofTokens ([⟨.ident, "push", ⟨1, 1, 0, 4⟩⟩, ⟨.openBracket, "[", ⟨1, 6, 5, 1⟩⟩,
        ⟨.ident, "rax", ⟨1, 7, 6, 3⟩⟩] ++ [⟨.eof, "", ⟨1, 10, 9, 0⟩⟩] ++
        [⟨.closeBracket, "]", ⟨1, 10, 9, 1⟩⟩]) =
      .error (.malformed "expected ']', found 'end of input'" ⟨1, 10, 9, 0⟩) :=
  (ofTokens_behind_eof _ _ rfl).1.trans (by decide +kernel)

end X64Asm
