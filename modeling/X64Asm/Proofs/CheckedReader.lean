import X64Asm.Proofs.CheckedScan
import X64Asm.Proofs.Grammar

/-! # Reading statements by index

`Checked.readListing` goes through a sequence of tokens by index.  It has no result if it looks for
a token where there is none or stands still.  For a sequence with an end mark it has one, the listing
that the sequence spells (`Checked.readListing_eq`).

The reader by index does not know where a line ends.  It takes items off the front, and asks for the
end of the line after them; whoever reads a segment asks that nothing is left of it.  The two give
the same report, of the first token that is left (`Takes`, `thenLineEnd_takes`). -/

namespace X64Asm

open Grammar

namespace Checked

/-! ### The reader -/

section reader

variable (tokens : List Token)

/-- The token at an index, or the last one if the index is too large. -/
def peek (pos : Nat) : Checked Token := do
  let last ← minus tokens.length 1
  match tokens[min pos last]? with
  | some t => pure t
  | none => ExceptT.mk none

/-- The token at an index, and the next index. -/
def next (pos : Nat) : Checked (Token × Nat) := do
  let t ← peek tokens pos
  pure (t, if pos < tokens.length then pos + 1 else pos)

/-- Whether the tokens are at their end. -/
def atEnd (pos : Nat) : Checked Bool := do
  if tokens.length ≤ pos then pure true
  else
    let t ← peek tokens pos
    pure (t.kind = .eof)

/-- Whether the line is at its end. -/
def atLineEnd (pos : Nat) : Checked Bool := do
  if ← atEnd tokens pos then pure true
  else
    let t ← peek tokens pos
    pure (t.kind = .newline)

/-- Reports a token that is left over in the line. -/
def expectLineEnd (pos : Nat) : Checked Unit := do
  if ← atLineEnd tokens pos then pure ()
  else
    let t ← peek tokens pos
    throw (t.unexpected .endOfLine)

/-- Reads what one token stands for. -/
def readToken {α : Type} (f : Token → Except Diagnostic α) (pos : Nat) : Checked (α × Nat) := do
  let (t, pos) ← next tokens pos
  let a ← ofExcept (f t)
  pure (a, pos)

/-- Reads an operand. -/
def readOperand (pos : Nat) : Checked (Operand × Nat) := do
  let (t, pos) ← next tokens pos
  match t.kind with
  | .number value =>
    let constant ← ofExcept (t.constant value)
    pure (.constant constant, pos)
  | .ident =>
    let r ← ofExcept t.register
    pure (.register r, pos)
  | .openBracket =>
    let (inner, pos) ← next tokens pos
    let address ← ofExcept inner.address
    let (close, pos) ← next tokens pos
    if close.kind = .closeBracket then pure (.memory address, pos)
    else throw (close.unexpected .closeBracket)
  | _ => throw (t.unexpected .operand)

/-- Reads items with commas between them. -/
def readItems {α : Type} (item : Nat → Checked (α × Nat)) (pos : Nat) : Checked (List α × Nat) := do
  let (a, stop) ← item pos
  let t ← peek tokens stop
  if t.kind = .comma then
    let (_, later) ← next tokens stop
    let ⟨_⟩ ← further tokens.length pos later
    let (as, stop) ← readItems item later
    pure (a :: as, stop)
  else pure ([a], stop)
termination_by tokens.length - pos
decreasing_by omega

/-- Reads the operands of an instruction. -/
def readOperands (pos : Nat) : Checked (List Operand × Nat) := do
  if ← atLineEnd tokens pos then pure ([], pos)
  else readItems tokens (readOperand tokens) pos

/-- A number of bytes whose bits can be shifted by within 128 bits. -/
def shiftWidth (width : UInt8) : Checked UInt8 :=
  guarded (1 ≤ 8 * width.toNat ∧ 8 * width.toNat < 128) width

/-- Reads the statement that a word introduces. -/
def readStatement (word : Token) (pos : Nat) : Checked (Statement × Nat) := do
  match Keyword.ofString? word.text.toLower with
  | some .mode =>
    let (bits, pos) ← readToken tokens Token.mode pos
    pure (.mode bits, pos)
  | some .enter =>
    let (name, pos) ← readToken tokens Token.name pos
    pure (.enter name, pos)
  | some .imports =>
    let (names, pos) ← readItems tokens (readToken tokens Token.name) pos
    pure (.imports names, pos)
  | some .exports =>
    let (names, pos) ← readItems tokens (readToken tokens Token.name) pos
    pure (.exports names, pos)
  | some (.data width) =>
    let width ← shiftWidth width
    let (values, pos) ← readItems tokens (readToken tokens (Token.dataBytes · width)) pos
    pure (.data values, pos)
  | none =>
    let (operands, pos) ← readOperands tokens pos
    pure (.instruction word.text.toLower operands, pos)

/-- Reads the statements of a line. -/
def readLine (draft : Listing.Draft) (pos : Nat) : Checked (Listing.Draft × Nat) := do
  let t ← peek tokens pos
  match t.kind with
  | .labelDef =>
    let (_, later) ← next tokens pos
    if ← atLineEnd tokens later then pure (draft.add (.label t.text), later)
    else
      let ⟨_⟩ ← further tokens.length pos later
      readLine (draft.add (.label t.text)) later
  | .ident =>
    let (_, pos) ← next tokens pos
    let (statement, pos) ← readStatement tokens t pos
    pure (draft.add statement, pos)
  | _ => throw (t.unexpected .statement)
termination_by tokens.length - pos
decreasing_by omega

/-- Reads all lines. -/
def readLines (draft : Listing.Draft) (pos : Nat) : Checked Listing.Draft := do
  if ← atEnd tokens pos then pure draft
  else
    let t ← peek tokens pos
    if t.kind = .newline then
      let (_, later) ← next tokens pos
      let ⟨_⟩ ← further tokens.length pos later
      readLines draft later
    else
      let (draft, later) ← readLine tokens draft pos
      expectLineEnd tokens later
      let ⟨_⟩ ← further tokens.length pos later
      readLines draft later
termination_by tokens.length - pos
decreasing_by all_goals omega

/-- Reads the listing that the tokens spell. -/
def readListing : Checked Listing := do
  if tokens.isEmpty then pure ⟨[]⟩
  else
    let draft ← readLines tokens {} 0
    pure ⟨draft.leave.placed.toList⟩

end reader

/-! ### Tokens at an index -/

/-- A token at which a line ends. -/
def EndsLine (t : Token) : Prop := t.kind = .newline ∨ t.kind = .eof

theorem EndsLine.delimits {t : Token} (h : EndsLine t) : Delimits t := .inr h

section looks

variable {tokens ts rest : List Token} {t : Token} {pos : Nat}

theorem drop_behind (h : tokens.drop pos = ts ++ rest) : tokens.drop (pos + ts.length) = rest := by
  rw [← List.drop_drop, h, List.drop_left]

theorem drop_next (h : tokens.drop pos = t :: rest) : tokens.drop (pos + 1) = rest := by
  rw [← List.drop_drop, h, List.drop_one, List.tail_cons]

theorem lt_length (h : tokens.drop pos = t :: rest) : pos < tokens.length := by
  rw [← Nat.not_le]
  intro hle
  rw [List.drop_eq_nil_of_le hle] at h
  cases h

theorem peek_eq (h : tokens.drop pos = t :: rest) : peek tokens pos = pure t := by
  have hget : tokens[pos]? = some t := by
    rw [← List.head?_drop, h, List.head?_cons]
  have hlt := lt_length h
  unfold peek minus
  rw [guarded_eq (Nat.one_le_of_lt hlt), pure_bind, Nat.min_eq_left (Nat.le_sub_one_of_lt hlt), hget]

theorem next_eq (h : tokens.drop pos = t :: rest) : next tokens pos = pure (t, pos + 1) := by
  unfold next
  rw [peek_eq h, pure_bind, if_pos (lt_length h)]

theorem atEnd_eq (h : tokens.drop pos = t :: rest) :
    atEnd tokens pos = pure (decide (t.kind = .eof)) := by
  unfold atEnd
  rw [if_neg (Nat.not_le.mpr (lt_length h)), peek_eq h, pure_bind]

theorem atLineEnd_eq (h : tokens.drop pos = t :: rest) :
    atLineEnd tokens pos = pure (decide (t.kind = .eof) || decide (t.kind = .newline)) := by
  unfold atLineEnd
  rw [atEnd_eq h, pure_bind]
  cases decide (t.kind = .eof) with
  | true => rfl
  | false =>
      rw [if_neg Bool.false_ne_true, peek_eq h, pure_bind]
      rfl

theorem atLineEnd_true (h : tokens.drop pos = t :: rest) (ht : EndsLine t) :
    atLineEnd tokens pos = pure true := by
  have hend : (decide (t.kind = .eof) || decide (t.kind = .newline)) = true := by
    rw [Bool.or_eq_true, decide_eq_true_eq, decide_eq_true_eq]
    exact ht.symm
  rw [atLineEnd_eq h, hend]

theorem atLineEnd_false (h : tokens.drop pos = t :: rest) (ht : ¬ EndsLine t) :
    atLineEnd tokens pos = pure false := by
  have hend : (decide (t.kind = .eof) || decide (t.kind = .newline)) = false := by
    rw [← Bool.not_eq_true, Bool.or_eq_true, decide_eq_true_eq, decide_eq_true_eq]
    exact fun hkind => ht hkind.symm
  rw [atLineEnd_eq h, hend]

theorem expectLineEnd_ok (h : tokens.drop pos = t :: rest) (ht : EndsLine t) :
    expectLineEnd tokens pos = pure () := by
  unfold expectLineEnd
  rw [atLineEnd_true h ht, pure_bind, if_pos rfl]

theorem expectLineEnd_error (h : tokens.drop pos = t :: rest) (ht : ¬ EndsLine t) :
    expectLineEnd tokens pos = throw (t.unexpected .endOfLine) := by
  unfold expectLineEnd
  rw [atLineEnd_false h ht, pure_bind, if_neg Bool.false_ne_true, peek_eq h, pure_bind]

end looks

/-! ### Items -/

section items

variable {α : Type} (tokens : List Token)

/-- The item is what the segment begins with, and what is left of the segment decides whether it
fills it; or it is reported as the segment is. -/
def Takes (item : Nat → Checked (α × Nat)) (part : Segment → Except Diagnostic α) : Prop :=
  ∀ pos (s : Segment) post, tokens.drop pos = s.tokens ++ s.stop :: post → Delimits s.stop →
    (∃ d, part s = .error d ∧ item pos = throw d) ∨
    ∃ a n, n ≤ s.tokens.length ∧ part s = Segment.complete ⟨s.tokens.drop n, s.stop⟩ a ∧
      item pos = pure (a, pos + n)

variable {tokens} {pos : Nat} {s : Segment} {post : List Token}

theorem next_head (h : tokens.drop pos = s.tokens ++ s.stop :: post) :
    next tokens pos = pure (s.head, pos + 1) := by
  obtain ⟨ts, stop⟩ := s
  cases ts with
  | nil => exact next_eq h
  | cons t ts => exact next_eq h

/-- Behind a token of the segment comes the rest of it. -/
theorem drop_tail (hstop : Delimits s.stop) (hhead : ¬ Delimits s.head)
    (h : tokens.drop pos = s.tokens ++ s.stop :: post) :
    tokens.drop (pos + 1) = s.tail.tokens ++ s.tail.stop :: post := by
  rw [Segment.tokens_eq_head_cons hstop hhead] at h
  exact drop_next h

theorem tail_eq (s : Segment) : s.tail = ⟨s.tokens.drop 1, s.stop⟩ := by
  rw [List.drop_one]
  rfl

theorem tail_three (s : Segment) : s.tail.tail.tail = ⟨s.tokens.drop 3, s.stop⟩ := by
  rw [tail_eq, tail_eq, tail_eq, List.drop_drop, List.drop_drop]

theorem one_le_length (hstop : Delimits s.stop) (hhead : ¬ Delimits s.head) :
    1 ≤ s.tokens.length := by
  rw [Segment.tokens_eq_head_cons hstop hhead]
  exact Nat.le_add_left 1 _

theorem takes_readToken {f : Token → Except Diagnostic α}
    (hf : ∀ t a, Delimits t → f t ≠ .ok a) :
    Takes tokens (readToken tokens f) (·.only f) := by
  intro pos s post h hstop
  unfold readToken Segment.only
  rw [next_head h, pure_bind]
  dsimp only
  cases hread : f s.head with
  | error d => exact .inl ⟨d, rfl, rfl⟩
  | ok a =>
      have hhead : ¬ Delimits s.head := fun hdelimits => hf _ a hdelimits hread
      exact .inr ⟨a, 1, one_le_length hstop hhead, by rw [← tail_eq]; rfl, rfl⟩

theorem takes_name : Takes tokens (readToken tokens Token.name) (·.only Token.name) := by
  apply takes_readToken
  intro t name ht hname
  rcases ht with hkind | hkind | hkind <;> simp [Token.name_eq_ok, hkind] at hname

theorem takes_mode : Takes tokens (readToken tokens Token.mode) (·.only Token.mode) := by
  apply takes_readToken
  intro t bits ht hbits
  rcases ht with hkind | hkind | hkind <;> simp [Token.mode, hkind] at hbits

theorem takes_dataBytes (width : UInt8) : Takes tokens (readToken tokens (Token.dataBytes · width))
    (·.only (Token.dataBytes · width)) := by
  apply takes_readToken
  intro t bytes ht hbytes
  rcases ht with hkind | hkind | hkind <;> simp [Token.dataBytes, hkind] at hbytes

theorem takes_operand : Takes tokens (readOperand tokens) Segment.operand := by
  intro pos s post h hstop
  unfold readOperand Segment.operand
  rw [next_head h, pure_bind]
  dsimp only
  cases hkind : s.head.kind with
  | number value =>
      have hhead : ¬ Delimits s.head := by simp [Delimits, hkind]
      dsimp only
      cases hread : s.head.constant value with
      | error d => exact .inl ⟨d, rfl, rfl⟩
      | ok constant =>
          exact .inr ⟨.constant constant, 1, one_le_length hstop hhead, by rw [← tail_eq]; rfl, rfl⟩
  | ident =>
      have hhead : ¬ Delimits s.head := by simp [Delimits, hkind]
      dsimp only
      cases hread : s.head.register with
      | error d => exact .inl ⟨d, rfl, rfl⟩
      | ok r =>
          exact .inr ⟨.register r, 1, one_le_length hstop hhead, by rw [← tail_eq]; rfl, rfl⟩
  | openBracket =>
      have hhead : ¬ Delimits s.head := by simp [Delimits, hkind]
      have htail := drop_tail hstop hhead h
      dsimp only
      rw [next_head htail, pure_bind]
      dsimp only
      cases hread : s.tail.head.address with
      | error d => exact .inl ⟨d, rfl, rfl⟩
      | ok address =>
          have hinner : ¬ Delimits s.tail.head := (Token.address_eq_ok_iff.mp hread).not_delimits
          have hrest := drop_tail (s := s.tail) hstop hinner htail
          rw [ofExcept_ok, pure_bind, next_head hrest, pure_bind]
          dsimp only
          by_cases hclose : s.tail.tail.head.kind = .closeBracket
          · right
            have hlast : ¬ Delimits s.tail.tail.head := by simp [Delimits, hclose]
            refine ⟨.memory address, 3, ?_, ?_, ?_⟩
            · rw [Segment.tokens_eq_head_cons hstop hhead,
                Segment.tokens_eq_head_cons (s := s.tail) hstop hinner,
                Segment.tokens_eq_head_cons (s := s.tail.tail) hstop hlast]
              exact Nat.le_add_left 3 _
            · rw [← tail_three]
              exact if_pos hclose
            · exact if_pos hclose
          · left
            exact ⟨s.tail.tail.head.unexpected .closeBracket, if_neg hclose, if_neg hclose⟩
  | stringLit => exact .inl ⟨_, rfl, rfl⟩
  | labelDef => exact .inl ⟨_, rfl, rfl⟩
  | comma => exact .inl ⟨_, rfl, rfl⟩
  | closeBracket => exact .inl ⟨_, rfl, rfl⟩
  | newline => exact .inl ⟨_, rfl, rfl⟩
  | eof => exact .inl ⟨_, rfl, rfl⟩

end items

/-! ### Lines -/

/-- The segment stands at an index and is one line or the rest of one. -/
structure StandsAt (tokens : List Token) (pos : Nat) (s : Segment) : Prop where
  place : ∃ post, tokens.drop pos = s.tokens ++ s.stop :: post
  stop : EndsLine s.stop
  inside : ∀ t ∈ s.tokens, ¬ EndsLine t

section lines

variable {α β : Type} {tokens : List Token}

/-- What is read, and the end of the line behind it. -/
def thenLineEnd (tokens : List Token) (x : Checked (α × Nat)) : Checked (α × Nat) := do
  let (a, pos) ← x
  expectLineEnd tokens pos
  pure (a, pos)

/-- A value or report, with the index up to which the tokens were read. -/
def upTo (pos : Nat) (e : Except Diagnostic α) : Checked (α × Nat) := do
  let a ← ofExcept e
  pure (a, pos)

theorem thenLineEnd_map (x : Checked (α × Nat)) (f : α → β) :
    thenLineEnd tokens (do let (a, pos) ← x; pure (f a, pos)) =
      (do let (a, pos) ← thenLineEnd tokens x; pure (f a, pos)) := by
  unfold thenLineEnd
  rw [bind_assoc, bind_assoc]
  congr 1
  funext ⟨a, pos⟩
  simp only [pure_bind, bind_assoc]

theorem thenLineEnd_upTo {x : Checked (α × Nat)} {e : Except Diagnostic α} {stop : Nat} (f : α → β)
    (h : thenLineEnd tokens x = upTo stop e) :
    thenLineEnd tokens (do let (a, pos) ← x; pure (f a, pos)) = upTo stop (e.map f) := by
  rw [thenLineEnd_map x f, h]
  cases e <;> rfl

variable {item : Nat → Checked (α × Nat)} {part : Segment → Except Diagnostic α} {pos : Nat}
  {s : Segment}

/-- Nothing is left of a segment just if the line ends behind the item. -/
theorem thenLineEnd_complete (h : StandsAt tokens pos s) {n : Nat} (hn : n ≤ s.tokens.length)
    (a : α) :
    thenLineEnd tokens (pure (a, pos + n)) =
      upTo (pos + s.tokens.length) (Segment.complete ⟨s.tokens.drop n, s.stop⟩ a) := by
  obtain ⟨⟨post, hplace⟩, hstop, hinside⟩ := h
  have hrest : tokens.drop (pos + n) = s.tokens.drop n ++ s.stop :: post := by
    rw [← List.drop_drop, hplace, List.drop_append_of_le_length hn]
  unfold thenLineEnd Segment.complete
  rw [pure_bind]
  dsimp only
  cases hleft : s.tokens.drop n with
  | nil =>
      have hlength : n = s.tokens.length := Nat.le_antisymm hn (List.drop_eq_nil_iff.mp hleft)
      rw [hleft] at hrest
      rw [expectLineEnd_ok hrest hstop, pure_bind, hlength]
      rfl
  | cons t rest =>
      have ht : t ∈ s.tokens := List.mem_of_mem_drop (hleft ▸ List.mem_cons_self)
      rw [hleft] at hrest
      rw [expectLineEnd_error hrest (hinside t ht)]
      rfl

theorem thenLineEnd_takes (hitem : Takes tokens item part) (h : StandsAt tokens pos s) :
    thenLineEnd tokens (item pos) = upTo (pos + s.tokens.length) (part s) := by
  obtain ⟨post, hplace⟩ := h.place
  rcases hitem pos s post hplace h.stop.delimits with ⟨d, hpart, hread⟩ | ⟨a, n, hn, hpart, hread⟩
  · rw [hpart, hread]
    rfl
  · rw [hpart, hread]
    exact thenLineEnd_complete h hn a

/-- The last item has no comma behind it. -/
theorem readItems_last (hitem : Takes tokens item part) (h : StandsAt tokens pos s)
    (hfree : ∀ t ∈ s.tokens, t.kind ≠ .comma) :
    readItems tokens item pos = (do let (a, pos) ← item pos; pure ([a], pos)) := by
  obtain ⟨⟨post, hplace⟩, hstop, _⟩ := h
  rw [readItems]
  rcases hitem pos s post hplace hstop.delimits with ⟨d, _, hread⟩ | ⟨a, n, hn, _, hread⟩
  · rw [hread]
    rfl
  · obtain ⟨t, rest, hpeek, ht⟩ : ∃ t rest, tokens.drop (pos + n) = t :: rest ∧
        t.kind ≠ .comma := by
      rw [← List.drop_drop, hplace, List.drop_append_of_le_length hn]
      cases hleft : s.tokens.drop n with
      | nil => exact ⟨s.stop, post, rfl, by rcases hstop with h | h <;> rw [h] <;> decide⟩
      | cons t rest =>
          exact ⟨t, _, rfl, hfree t (List.mem_of_mem_drop (hleft ▸ List.mem_cons_self))⟩
    rw [hread, pure_bind, pure_bind]
    dsimp only
    rw [peek_eq hpeek, pure_bind, if_neg ht]

/-- An item with a comma behind it is followed by others. -/
theorem readItems_more (hitem : Takes tokens item part) {first rest : List Token} {comma : Token}
    (hplace : tokens.drop pos = first ++ comma :: rest) (hcomma : comma.kind = .comma)
    (hfree : ∀ t ∈ first, t.kind ≠ .comma) (hinside : ∀ t ∈ first, ¬ EndsLine t) :
    thenLineEnd tokens (readItems tokens item pos) =
      (do
        let a ← ofExcept (part ⟨first, comma⟩)
        let (as, pos) ← thenLineEnd tokens (readItems tokens item (pos + first.length + 1))
        pure (a :: as, pos)) := by
  rw [readItems]
  rcases hitem pos ⟨first, comma⟩ rest hplace (.inl hcomma) with
    ⟨d, hpart, hread⟩ | ⟨a, n, hn, hpart, hread⟩
  · rw [hpart, hread]
    rfl
  · have hbehind : tokens.drop (pos + n) = first.drop n ++ comma :: rest := by
      rw [← List.drop_drop, hplace, List.drop_append_of_le_length hn]
    rw [hpart, hread, pure_bind]
    dsimp only
    cases hleft : first.drop n with
    | nil =>
        have hlength : n = first.length := Nat.le_antisymm hn (List.drop_eq_nil_iff.mp hleft)
        rw [hleft, hlength] at hbehind
        have hlater : pos < pos + first.length + 1 := by omega
        rw [hlength, peek_eq hbehind, pure_bind, if_pos hcomma, next_eq hbehind, pure_bind]
        dsimp only
        rw [further_eq hlater (lt_length hbehind), pure_bind]
        exact thenLineEnd_map _ (a :: ·)
    | cons t left =>
        have ht : t ∈ first := List.mem_of_mem_drop (hleft ▸ List.mem_cons_self)
        rw [hleft] at hbehind
        rw [peek_eq hbehind, pure_bind, if_neg (hfree t ht), thenLineEnd, pure_bind]
        dsimp only
        rw [expectLineEnd_error hbehind (hinside t ht)]
        rfl

/-- Items are read one after the other as the parts of a segment are. -/
theorem readItems_eq (hitem : Takes tokens item part) (h : StandsAt tokens pos s) :
    thenLineEnd tokens (readItems tokens item pos) =
      upTo (pos + s.tokens.length) ((s.splitOn .comma).mapM part) := by
  obtain ⟨ts, stop⟩ := s
  induction ts using Segment.cut_induction .comma generalizing pos with
  | free ts hfree =>
      rw [readItems_last hitem h hfree, thenLineEnd_upTo ([·]) (thenLineEnd_takes hitem h),
        Segment.splitOn_of_free hfree, List.mapM_cons]
      cases part ⟨ts, stop⟩ <;> rfl
  | cut first comma more hfree hcomma ih =>
      obtain ⟨⟨post, hplace⟩, hstop, hinside⟩ := h
      dsimp only at hplace hstop hinside
      rw [List.append_assoc, List.cons_append] at hplace
      have hmore : StandsAt tokens (pos + first.length + 1) ⟨more, stop⟩ := by
        refine ⟨⟨post, drop_next (drop_behind hplace)⟩, hstop, fun t ht => ?_⟩
        exact hinside t (List.mem_append_right _ (List.mem_cons_of_mem _ ht))
      rw [readItems_more hitem hplace hcomma hfree fun t ht => hinside t (List.mem_append_left _ ht),
        ih hmore, Segment.splitOn_append hfree hcomma, List.mapM_cons, List.length_append,
        List.length_cons]
      have hpos : pos + first.length + 1 + more.length =
          pos + (first.length + (more.length + 1)) := by omega
      rw [hpos]
      cases part ⟨first, comma⟩ with
      | error d => rfl
      | ok a => cases (Segment.splitOn .comma ⟨more, stop⟩).mapM part <;> rfl

theorem readOperands_eq (h : StandsAt tokens pos s) :
    thenLineEnd tokens (readOperands tokens pos) = upTo (pos + s.tokens.length) s.operands := by
  unfold readOperands Segment.operands
  obtain ⟨post, hplace⟩ := h.place
  cases htokens : s.tokens with
  | nil =>
      have hnone := thenLineEnd_complete h (Nat.zero_le _) ([] : List Operand)
      rw [htokens] at hplace hnone
      rw [atLineEnd_true hplace h.stop, pure_bind, if_pos rfl]
      exact hnone
  | cons t ts =>
      have ht : ¬ EndsLine t := h.inside t (htokens ▸ List.mem_cons_self)
      rw [htokens] at hplace
      rw [atLineEnd_false hplace ht, pure_bind, if_neg Bool.false_ne_true,
        readItems_eq takes_operand h, htokens]
      rfl

theorem shiftWidth_eq {word : String} {width : UInt8}
    (h : Keyword.ofString? word = some (.data width)) :
    shiftWidth width = pure width := by
  have hwidth : width = 1 ∨ width = 2 ∨ width = 4 ∨ width = 8 := by
    unfold Keyword.ofString? at h
    split at h <;> cases h <;> decide
  apply guarded_eq
  rcases hwidth with rfl | rfl | rfl | rfl <;> decide

theorem readStatement_eq (word : Token) (h : StandsAt tokens pos s) :
    thenLineEnd tokens (readStatement tokens word pos) =
      upTo (pos + s.tokens.length) (s.statement word) := by
  unfold readStatement Segment.statement
  cases hword : Keyword.ofString? word.text.toLower with
  | none => exact thenLineEnd_upTo (Statement.instruction word.text.toLower) (readOperands_eq h)
  | some keyword =>
      cases keyword with
      | mode => exact thenLineEnd_upTo Statement.mode (thenLineEnd_takes takes_mode h)
      | enter => exact thenLineEnd_upTo Statement.enter (thenLineEnd_takes takes_name h)
      | imports => exact thenLineEnd_upTo Statement.imports (readItems_eq takes_name h)
      | exports => exact thenLineEnd_upTo Statement.exports (readItems_eq takes_name h)
      | data width =>
          dsimp only
          rw [shiftWidth_eq hword, pure_bind]
          exact thenLineEnd_upTo Statement.data (readItems_eq (takes_dataBytes width) h)

theorem StandsAt.tail {t stop : Token} {ts : List Token} (h : StandsAt tokens pos ⟨t :: ts, stop⟩) :
    StandsAt tokens (pos + 1) ⟨ts, stop⟩ := by
  obtain ⟨⟨post, hplace⟩, hstop, hinside⟩ := h
  exact ⟨⟨post, drop_next hplace⟩, hstop,
    fun u hu => hinside u (List.mem_cons_of_mem t hu)⟩

/-- The statements of a line are added to the draft one after the other. -/
theorem readLine_eq (draft : Listing.Draft) {line : List Token} {stop : Token}
    (h : StandsAt tokens pos ⟨line, stop⟩) (hline : line ≠ []) :
    thenLineEnd tokens (readLine tokens draft pos) =
      upTo (pos + line.length)
        ((Segment.lineStatements stop line).map (List.foldl Listing.Draft.add draft)) := by
  induction line generalizing draft pos with
  | nil => exact absurd rfl hline
  | cons t line ih =>
      obtain ⟨post, hplace⟩ := h.place
      obtain ⟨post', hrest⟩ := h.tail.place
      rw [readLine, peek_eq hplace, pure_bind, Segment.lineStatements, List.length_cons,
        Nat.add_comm line.length, ← Nat.add_assoc]
      cases hkind : t.kind with
      | labelDef =>
          dsimp only
          rw [next_eq hplace, pure_bind]
          dsimp only
          cases line with
          | nil =>
              rw [atLineEnd_true hrest h.stop, pure_bind, if_pos rfl]
              exact thenLineEnd_complete h.tail (Nat.zero_le _) (draft.add (.label t.text))
          | cons u line =>
              have hu : ¬ EndsLine u := h.tail.inside u List.mem_cons_self
              rw [atLineEnd_false hrest hu, pure_bind, if_neg Bool.false_ne_true,
                further_eq (Nat.lt_succ_self pos) (lt_length hplace), pure_bind,
                ih _ h.tail (List.cons_ne_nil u line)]
              cases Segment.lineStatements stop (u :: line) <;> rfl
      | ident =>
          dsimp only
          rw [next_eq hplace, pure_bind]
          refine (thenLineEnd_upTo draft.add (readStatement_eq t h.tail)).trans ?_
          cases Segment.statement t ⟨line, stop⟩ <;> rfl
      | _ => rfl

/-! ### All lines -/

variable (draft : Listing.Draft) {t : Token} {rest : List Token}

theorem readLines_newline (h : tokens.drop pos = t :: rest) (ht : t.kind = .newline) :
    readLines tokens draft pos = readLines tokens draft (pos + 1) := by
  have heof : decide (t.kind = .eof) = false := by rw [ht]; rfl
  rw [readLines, atEnd_eq h, heof, pure_bind, if_neg Bool.false_ne_true, peek_eq h, pure_bind,
    if_pos ht, next_eq h, pure_bind]
  dsimp only
  rw [further_eq (Nat.lt_succ_self pos) (lt_length h), pure_bind]

theorem readLines_eof (h : tokens.drop pos = t :: rest) (ht : t.kind = .eof) :
    readLines tokens draft pos = pure draft := by
  rw [readLines, atEnd_eq h, pure_bind, if_pos (decide_eq_true ht)]

/-- The lines are read after the first one. -/
theorem readLines_line {line : List Token} {stop : Token} (h : StandsAt tokens pos ⟨line, stop⟩) :
    readLines tokens draft pos =
      (do
        let (draft, pos) ← upTo (pos + line.length)
          ((Segment.lineStatements stop line).map (List.foldl Listing.Draft.add draft))
        readLines tokens draft pos) := by
  cases line with
  | nil => rfl
  | cons t ts =>
      obtain ⟨post, hplace⟩ := h.place
      have ht : ¬ EndsLine t := h.inside t List.mem_cons_self
      have heof : decide (t.kind = .eof) = false := decide_eq_false fun hkind => ht (.inr hkind)
      have hlater : pos < pos + (t :: ts).length := Nat.lt_add_of_pos_right (Nat.succ_pos _)
      have hlast : pos + (t :: ts).length ≤ tokens.length :=
        Nat.le_of_lt (lt_length (drop_behind hplace))
      have hreads : readLines tokens draft pos =
          (do
            let (draft, later) ← thenLineEnd tokens (readLine tokens draft pos)
            let ⟨_⟩ ← further tokens.length pos later
            readLines tokens draft later) := by
        rw [readLines, atEnd_eq hplace, heof, pure_bind, if_neg Bool.false_ne_true, peek_eq hplace,
          pure_bind, if_neg fun hkind => ht (.inl hkind), thenLineEnd, bind_assoc]
        congr 1
        funext ⟨draft, later⟩
        simp only [bind_assoc, pure_bind]
      rw [hreads, readLine_eq draft h (List.cons_ne_nil t ts)]
      cases Segment.lineStatements stop (t :: ts) with
      | error d => rfl
      | ok sts =>
          show (further _ _ _ >>= _) = _
          rw [further_eq hlater hlast]
          rfl

theorem statements_of_free {ts : List Token} {stop : Token} (h : ∀ t ∈ ts, t.kind ≠ .newline) :
    Segment.statements ⟨ts, stop⟩ = Segment.lineStatements stop ts := by
  unfold Segment.statements
  rw [Segment.splitOn_of_free h, List.mapM_cons]
  cases Segment.lineStatements stop ts with
  | error d => rfl
  | ok sts => exact congrArg Except.ok (List.append_nil sts)

theorem statements_append {ts more : List Token} {stop : Token} (h : ∀ u ∈ ts, u.kind ≠ .newline)
    (ht : t.kind = .newline) :
    Segment.statements ⟨ts ++ t :: more, stop⟩ =
      (do
        let first ← Segment.lineStatements t ts
        let others ← Segment.statements ⟨more, stop⟩
        pure (first ++ others)) := by
  unfold Segment.statements
  rw [Segment.splitOn_append h ht, List.mapM_cons]
  cases Segment.lineStatements t ts with
  | error d => rfl
  | ok first =>
      cases (Segment.splitOn .newline ⟨more, stop⟩).mapM
        fun line => Segment.lineStatements line.stop line.tokens <;> rfl

/-- The lines are read one after the other up to the end mark. -/
theorem readLines_eq {ts : List Token} {eof : Token} (h : tokens.drop pos = ts ++ eof :: rest)
    (hts : ∀ t ∈ ts, t.kind ≠ .eof) (heof : eof.kind = .eof) :
    readLines tokens draft pos =
      ofExcept ((Segment.statements ⟨ts, eof⟩).map (List.foldl Listing.Draft.add draft)) := by
  induction ts using Segment.cut_induction .newline generalizing pos draft with
  | free ts hfree =>
      have hline : StandsAt tokens pos ⟨ts, eof⟩ :=
        ⟨⟨rest, h⟩, .inr heof, fun t ht hends => hends.elim (hfree t ht) (hts t ht)⟩
      rw [readLines_line draft hline, statements_of_free hfree]
      cases Segment.lineStatements eof ts with
      | error d => rfl
      | ok sts => exact readLines_eof _ (drop_behind h) heof
  | cut line newline more hfree hnewline ih =>
      rw [List.append_assoc, List.cons_append] at h
      rw [List.forall_mem_append, List.forall_mem_cons] at hts
      have hline : StandsAt tokens pos ⟨line, newline⟩ :=
        ⟨⟨_, h⟩, .inl hnewline, fun t ht hends => hends.elim (hfree t ht) (hts.1 t ht)⟩
      have hbehind := drop_behind h
      rw [readLines_line draft hline, statements_append hfree hnewline]
      cases Segment.lineStatements newline line with
      | error d => rfl
      | ok sts =>
          refine (readLines_newline _ hbehind hnewline).trans ?_
          rw [ih _ (drop_next hbehind) hts.2.2]
          cases Segment.statements ⟨more, eof⟩ with
          | error d => rfl
          | ok others => exact congrArg (fun d => ofExcept (.ok d)) (List.foldl_append ..).symm

end lines

/-- The reader by index reads the listing that the tokens spell. -/
theorem readListing_eq {ts rest : List Token} {eof : Token} (hts : ∀ t ∈ ts, t.kind ≠ .eof)
    (heof : eof.kind = .eof) :
    readListing (ts ++ eof :: rest) = ofExcept (Listing.ofTokens (ts ++ eof :: rest)) := by
  have hnonempty : (ts ++ eof :: rest).isEmpty = false := by
    rw [List.isEmpty_eq_false_iff]
    exact List.append_ne_nil_of_right_ne_nil ts (List.cons_ne_nil eof rest)
  unfold readListing Listing.ofTokens readStatements
  rw [hnonempty, if_neg Bool.false_ne_true, Segment.ofTokens?_append_eof hts heof,
    readLines_eq {} List.drop_zero hts heof]
  dsimp only
  cases Segment.statements ⟨ts, eof⟩ <;> rfl

end Checked

end X64Asm
