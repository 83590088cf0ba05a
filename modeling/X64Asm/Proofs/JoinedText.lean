import X64Asm.Proofs.AlikeReadings
import X64Asm.Proofs.Grammar
import X64Asm.Proofs.Pieces

/-! # Texts put together

Two texts with a line end between them are read as the statements of the first and then those of the
second (`readStatements_joined`).

* No piece of the first text goes on behind its end, since no piece is continued by a line end
  (`Piece.read_append_newline`).
* The second text is read from another position, so its tokens are `Alike` but not equal.
* The readers do not look at positions (`readStatements_of_alike`). -/

namespace X64Asm

/-! ### Tokens ahead of a line end -/

section scan

variable {p : Position} {cs : List Char} {ts : List Token}

/-- The tokens of a text are alike wherever the text begins. -/
theorem scan_alike (h : scan p cs = .ok ts) (q : Position) :
    ∃ us, scan q cs = .ok us ∧ List.Forall₂ Token.Alike us ts := by
  fun_induction scan p cs generalizing ts q with
  | case1 p =>
      cases h
      exact ⟨[⟨.eof, "", q.span 0⟩], by rw [scan], .cons ⟨rfl, rfl⟩ .nil⟩
  | case2 => cases h
  | case3 => cases h
  | case4 p c cs piece hpiece chars rest hrest =>
      rename_i ih
      cases h
      obtain ⟨us, hus, halike⟩ := ih hrest (q.advance chars)
      refine ⟨_, scan_cons hpiece hus, List.rel_append ?_ halike⟩
      unfold Piece.token?
      cases piece.kind with
      | none => exact .nil
      | some kind => exact .cons ⟨rfl, rfl⟩ .nil

/-- The tokens of a text are read in the same way if a line end and another text follow. -/
theorem scan_append_newline {ahead us : List Token} {eof : Token} {ds : List Char}
    (h : scan p cs = .ok (ahead ++ [eof]))
    (hds : scan ((p.advance cs).step '\n') ds = .ok us) :
    scan p (cs ++ '\n' :: ds) =
      .ok (ahead ++ ⟨.newline, "\n", (p.advance cs).span 1⟩ :: us) := by
  fun_induction scan p cs generalizing ahead with
  | case1 p =>
      obtain ⟨rfl, _⟩ := @List.append_inj' _ [] _ _ _ (Except.ok.inj h) rfl
      have hpiece : Piece.read '\n' ds = .ok (.single .newline '\n') := rfl
      exact scan_cons hpiece hds
  | case2 => cases h
  | case3 => cases h
  | case4 p c cs piece hpiece chars rest hrest =>
      rename_i ih
      obtain ⟨ahead', eof', rfl, _⟩ := scan_ends hrest
      rw [← List.append_assoc] at h
      obtain ⟨rfl, heof⟩ := List.append_inj' (Except.ok.inj h) rfl
      cases heof
      have hread := Piece.read_append_newline hpiece ds
      have hmore := Piece.more_le_of_read hpiece
      have hplace : (p.advance chars).advance (cs.drop piece.more) = p.advance (c :: cs) := by
        rw [← Position.advance_append, List.cons_append, List.take_append_drop]
      rw [← hplace] at hds ⊢
      have hrest' := ih hrest hds
      rw [← List.drop_append_of_le_length hmore] at hrest'
      have hjoined := scan_cons (p := p) hread (by rwa [List.take_append_of_le_length hmore])
      rw [List.take_append_of_le_length hmore] at hjoined
      rw [List.cons_append, hjoined, List.append_assoc]

end scan

/-! ### Statements of both texts -/

/-- Two sequences with a separator between them are one. -/
theorem Grammar.Separated.append {α : Type} {separator : TokenKind} {Item : List Token → α → Prop}
    {t : Token} {ts us : List Token} {as bs : List α} (h : Separated separator Item ts as)
    (kind : t.kind = separator) (h' : Separated separator Item us bs) :
    Separated separator Item (ts ++ t :: us) (as ++ bs) := by
  induction h with
  | last item => exact .cons item kind h'
  | cons item kind' _ ih =>
      rw [List.append_assoc]
      exact .cons item kind' ih

open Grammar

/-- Two texts with a line end between them are read as the statements of both. -/
theorem readStatements_joined {a b : String} {tokens tokens' : List Token}
    {sts sts' : List Statement} (ha : tokenize a = .ok tokens)
    (hsts : readStatements tokens = .ok sts) (hb : tokenize b = .ok tokens')
    (hsts' : readStatements tokens' = .ok sts') :
    ∃ joined, tokenize (a ++ "\n" ++ b) = .ok joined ∧
      readStatements joined = .ok (sts ++ sts') := by
  -- The second text stands behind the first, so its tokens are read anew from there.
  obtain ⟨moved, hmoved, halike⟩ := scan_alike hb ((Position.advance {} a.toList).step '\n')
  have hmovedSts := readStatements_of_alike halike hsts'
  obtain ⟨ahead, eof, rfl, heof, hahead⟩ := scan_ends ha
  obtain ⟨behind, eof', rfl, heof', hbehind⟩ := scan_ends hmoved
  obtain ⟨lines, hlines, rfl⟩ := (readStatements_eq_ok_iff hahead heof).mp hsts
  obtain ⟨lines', hlines', rfl⟩ := (readStatements_eq_ok_iff hbehind heof').mp hmovedSts
  have htokens : tokenize (a ++ "\n" ++ b) = scan {} (a.toList ++ '\n' :: b.toList) := by
    simp [tokenize]
  have hjoined := htokens.trans (scan_append_newline ha hmoved)
  rw [← List.cons_append, ← List.append_assoc] at hjoined
  have hfree : ∀ t ∈ ahead ++ ⟨.newline, "\n", (Position.advance {} a.toList).span 1⟩ :: behind,
      t.kind ≠ .eof := by
    intro t ht
    rcases List.mem_append.mp ht with ht | ht
    · exact hahead t ht
    · rcases List.mem_cons.mp ht with rfl | ht
      · simp
      · exact hbehind t ht
  have hboth := hlines.append (t := ⟨.newline, "\n", (Position.advance {} a.toList).span 1⟩) rfl
    hlines'
  refine ⟨_, hjoined, (readStatements_eq_ok_iff hfree heof').mpr ⟨_, hboth, ?_⟩⟩
  exact List.flatten_append

end X64Asm
