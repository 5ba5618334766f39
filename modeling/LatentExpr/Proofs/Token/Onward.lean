import LatentExpr.Proofs.Token.Partition
import LatentExpr.Proofs.Token.Tables

/-!
The way of a lexer through its source. Whatever is asked for, and also where a request faults, a lexer moves on
over whole characters (`Onward`), unless a single byte was asked for; a lexer that was left inside of a character
stays there until its bytes are asked for. So what is left of a source is the source from the position on
(`Reached.within`).
-/
namespace LatentExpr

namespace Lexer

open Lexeme

/-- One lexer comes from another by reading some text, none if that one stands inside of a character. -/
structure Onward (l l' : Lexer) : Prop where
  symbols : l'.symbols = l.symbols
  source : l'.source = l.source
  split : l'.split = l.split
  text : ∃ text, l.rest = text ++ l'.rest ∧ l'.position = l.position + byteCount text ∧
    (l.split ≠ [] → text = [])

section
variable {l l' l'' : Lexer}

theorem Onward.refl (l : Lexer) : l.Onward l := ⟨rfl, rfl, rfl, [], rfl, rfl, fun _ => rfl⟩

theorem Onward.trans (h : l.Onward l') (h' : l'.Onward l'') : l.Onward l'' := by
  obtain ⟨text, hrest, hposition, hnone⟩ := h.text
  obtain ⟨more, hrest', hposition', hnone'⟩ := h'.text
  refine ⟨h'.symbols.trans h.symbols, h'.source.trans h.source, h'.split.trans h.split, text ++ more, ?_, ?_, ?_⟩
  · rw [hrest, hrest', List.append_assoc]
  · rw [hposition', hposition, byteCount_append, Nat.add_assoc]
  · intro hsplit
    rw [hnone hsplit, hnone' (h.split ▸ hsplit), List.append_nil]

/-- Reading a text with which the rest begins. Marks and names have no part in it. -/
theorem Onward.past {text rest : List Char} (hsplit : l.split = []) (hrest : l.rest = text ++ rest)
    (mark : LineMark) (interner : Interner) : l.Onward { l.past text rest with mark, interner } :=
  ⟨rfl, rfl, rfl, text, hrest, rfl, fun h => absurd hsplit h⟩

theorem onward_skip (hsplit : l.split = []) : l.Onward (skip l).2 := by
  fun_induction skip l with
  | case1 | case3 | case6 => exact .refl _
  | case2 l text hr _ line ih =>
    have hrest : l.rest = ('/' :: '/' :: line.1) ++ line.2 := by
      rw [hr, List.cons_append, List.cons_append, Comment.splitLine_append]
    exact (Onward.past hsplit hrest l.mark l.interner).trans (ih hsplit)
  | case4 l text hr body rest hs _ block mark ih =>
    refine .trans ?_ (ih hsplit)
    refine ⟨rfl, rfl, rfl, '/' :: '*' :: body ++ ['*', '/'], ?_, ?_, fun h => absurd hsplit h⟩
    · simp [hr, Comment.eq_append_of_splitClose? hs]
    · rw [byteCount_append, byteCount_cons, byteCount_cons]
      show l.position + 2 + byteCount body + 1 + 1 = l.position + (1 + (1 + byteCount body) + 2)
      omega
  | case5 l c rest _ _ hr _ ih =>
    have hrest : l.rest = [c] ++ rest := hr
    exact (Onward.past hsplit hrest _ l.interner).trans (ih hsplit)

theorem onward_advance (l : Lexer) : l.Onward (advance l).2 := by
  unfold advance
  split
  · rename_i hsplit
    exact onward_skip (List.isEmpty_iff.1 hsplit)
  · exact .refl l

end

end Lexer

/-! ### Requests -/

namespace Lexing
variable {α β : Type} {t : SymbolTable} {x : Lexing α}

/-- Whether it answers or faults, a request moves a lexer with the table on. -/
def Moves (t : SymbolTable) (x : Lexing α) : Prop := ∀ l : Lexer, l.symbols = t → l.Onward (x l).2

theorem Moves.pure (a : α) : Moves t (Pure.pure a) := fun l _ => .refl l

theorem Moves.bind {f : α → Lexing β} (hx : Moves t x) (hf : ∀ a, Moves t (f a)) : Moves t (x >>= f) := by
  intro l hl
  have hmoved := hx l hl
  rw [bind_apply]
  cases h : x l with
  | mk answer l' =>
    rw [h] at hmoved
    cases answer with
    | error e => exact hmoved
    | ok a => exact hmoved.trans (hf a l' (hmoved.symbols.trans hl))

theorem Moves.get_bind {f : Lexer → Lexing β} (hf : ∀ l : Lexer, l.symbols = t → l.Onward (f l l).2) :
    Moves t (get >>= f) := fun l hl => hf l hl

end Lexing

namespace Lexer
variable {definitions : List (String × List String)} {l : Lexer}

open Lexing Lexeme

theorem split_eq_nil_of_readable {c : Char} {after : List Char} (h : l.readable = c :: after) :
    l.split = [] ∧ l.rest = c :: after := by
  unfold readable at h
  split at h
  · rename_i hsplit
    exact ⟨List.isEmpty_iff.1 hsplit, h⟩
  · cases h

theorem moves_advance {t : SymbolTable} : Moves t advance := fun l _ => onward_advance l

theorem moves_peek? {t : SymbolTable} : Moves t peek? :=
  moves_advance.bind fun _ => .get_bind fun l _ => .refl l

theorem moves_peekByte? {t : SymbolTable} : Moves t peekByte? :=
  moves_advance.bind fun _ => .get_bind fun l _ => .refl l

theorem moves_hasRemaining {t : SymbolTable} : Moves t hasRemaining := moves_peekByte?.bind fun _ => .pure _

theorem Onward.pastSymbol {symbols : List String} {symbol : String} (hsplit : l.split = [])
    (h : (Matcher.ofSymbols symbols).longestIn? l.rest = some symbol) (interner : Interner) :
    l.Onward { l.pastSymbol symbol with interner } :=
  .past hsplit (Matcher.eq_append_drop_of_longestIn? h) l.mark interner

theorem moves_consumeSymbol? (group : OperatorGroup) : Moves (.ofGroups definitions) (consumeSymbol? group) := by
  refine moves_advance.bind fun _ => .get_bind fun l hl => ?_
  cases hreadable : l.readable with
  | nil => exact .refl l
  | cons c after =>
    obtain ⟨hsplit, hrest⟩ := split_eq_nil_of_readable hreadable
    simp only [List.isEmpty_cons, Bool.false_eq_true, if_false]
    cases (l.symbols.group? group.name).bind (·.longestIn? (c :: after)) with
    | none => exact .refl l
    | some symbol =>
      dsimp only
      split
      · rename_i hlong
        rw [← hrest, hl] at hlong
        exact .pastSymbol hsplit hlong _
      · exact .refl l

theorem moves_consumeText (text : String) : Moves (.ofGroups definitions) (consumeText text) := by
  refine moves_advance.bind fun _ => .get_bind fun l hl => ?_
  cases hreadable : l.readable with
  | nil => exact .refl l
  | cons c after =>
    obtain ⟨hsplit, hrest⟩ := split_eq_nil_of_readable hreadable
    split
    · rename_i hcond
      have hlong := of_decide_eq_true (Bool.and_eq_true_iff.1 hcond).2
      rw [← hrest, hl] at hlong
      exact .pastSymbol hsplit hlong _
    · exact .refl l

theorem onward_take (kind : TokenKind) {text rest : List Char} (hsplit : l.split = [])
    (hrest : l.rest = text ++ rest) : l.Onward (take kind text rest l).2 := by
  cases kind
  · exact .past hsplit hrest l.mark l.interner
  · exact .past hsplit hrest l.mark l.interner
  · exact .past hsplit hrest l.mark _
  · exact .past hsplit hrest l.mark _

theorem moves_nextIdentifier? {t : SymbolTable} : Moves t nextIdentifier? := by
  refine moves_advance.bind fun _ => .get_bind fun l _ => ?_
  cases hreadable : l.readable with
  | nil => exact .refl l
  | cons c after =>
    obtain ⟨hsplit, -⟩ := split_eq_nil_of_readable hreadable
    dsimp only
    split
    · rw [snd_map]
      exact onward_take _ hsplit (identifier_append _).symm
    · exact .refl l

theorem onward_takeString {quote : Char} {after : List Char} (hsplit : l.split = [])
    (hrest : l.rest = quote :: after) : l.Onward (takeString quote after l).2 := by
  have happend := stringTail_append quote after
  rw [takeString]
  simp only [bind_apply, get_apply, set_apply]
  generalize stringTail quote after = scanned at happend
  obtain ⟨tail, behind, ending⟩ := scanned
  have hnoted (mark : LineMark) : l.Onward { l with mark } := ⟨rfl, rfl, rfl, [], rfl, rfl, fun _ => rfl⟩
  cases ending with
  | closed =>
    have hwhole : l.rest = (quote :: tail) ++ behind := by rw [List.cons_append, happend, hrest]
    exact (hnoted _).trans (onward_take .string hsplit hwhole)
  | unterminated => exact hnoted _

theorem onward_takeSymbol {c : Char} (hsplit : l.split = []) (ht : l.symbols = .ofGroups definitions) :
    l.Onward (takeSymbol c l).2 := by
  rw [takeSymbol]
  simp only [bind_apply, get_apply]
  cases hlong : l.symbols.all.longestIn? l.rest with
  | none => exact .refl l
  | some symbol =>
    rw [ht] at hlong
    exact onward_take .symbol hsplit (Matcher.eq_append_drop_of_longestIn? hlong)

theorem moves_nextToken? : Moves (.ofGroups definitions) nextToken? := by
  refine moves_advance.bind fun _ => .get_bind fun l hl => ?_
  cases hreadable : l.readable with
  | nil => exact .refl l
  | cons c after =>
    obtain ⟨hsplit, hrest⟩ := split_eq_nil_of_readable hreadable
    dsimp only
    by_cases hzero : c = '0'
    · rw [if_pos hzero, snd_map]
      exact onward_take _ hsplit (fromZero_append _).symm
    by_cases hdecimal : (c.isDigit || (c = '.' && after.head?.any Char.isDigit)) = true
    · rw [if_neg hzero, if_pos hdecimal, snd_map]
      exact onward_take _ hsplit (decimal_append _).symm
    by_cases hident : Text.isIdentStart c = true
    · rw [if_neg hzero, if_neg hdecimal, if_pos hident, snd_map]
      exact onward_take _ hsplit (identifier_append _).symm
    rw [if_neg hzero, if_neg hdecimal, if_neg hident]
    split
    · rw [snd_map]
      exact onward_takeString hsplit hrest
    · rw [snd_map]
      exact onward_takeSymbol hsplit hl

/-- A token that is looked at is put back. -/
theorem moves_peekToken? : Moves (.ofGroups definitions) peekToken? := by
  refine moves_advance.bind fun _ => .get_bind fun l hl => ?_
  have hnext := moves_nextToken? l hl
  exact ⟨hnext.symbols, hnext.source, hnext.split, [], rfl, rfl, fun _ => rfl⟩

/-- A single byte is taken from where the lexer stands behind blanks, or nothing is. -/
theorem consumeByte_cases (b : UInt8) (l : Lexer) :
    ∃ start, l.Onward start ∧ ((consumeByte b l).2 = start ∨
      start.nextByte? = some b ∧ (consumeByte b l).2 = start.pastByte) := by
  refine ⟨(advance l).2, onward_advance l, ?_⟩
  rw [consumeByte, bind_apply]
  cases h : advance l with
  | mk answer start =>
    cases answer with
    | error e => exact .inl rfl
    | ok _ =>
      simp only [bind_apply, get_apply]
      split
      · rename_i hcond
        exact .inr ⟨hcond.1, rfl⟩
      · exact .inl rfl

/-- Every request but the one for a single byte moves a lexer on over whole characters. -/
theorem onward_or_byte (request : Request) (hl : l.symbols = .ofGroups definitions) :
    l.Onward (request.perform l) ∨ ∃ b, request.perform l = (consumeByte b l).2 := by
  cases request with
  | advance => exact .inl (moves_advance l hl)
  | peek => exact .inl (moves_peek? l hl)
  | peekByte => exact .inl (moves_peekByte? l hl)
  | hasRemaining => exact .inl (moves_hasRemaining l hl)
  | consume b => exact .inr ⟨b, rfl⟩
  | consumeSymbol group => exact .inl (moves_consumeSymbol? group l hl)
  | consumeText text => exact .inl (moves_consumeText text l hl)
  | nextIdentifier => exact .inl (moves_nextIdentifier? l hl)
  | nextToken => exact .inl (moves_nextToken? l hl)
  | peekToken => exact .inl (moves_peekToken? l hl)
  | foundText =>
    have hpeek := moves_peekToken? l hl
    rw [← snd_foundText] at hpeek
    exact .inl hpeek

/-! ### What is left of a source -/

/-- A byte that continues a character. -/
def Continues (b : UInt8) : Prop := 0x80 ≤ b.toNat ∧ b.toNat < 0xC0

theorem continues_ofNat (n : Nat) : Continues (.ofNat (n % 0x40 + 0x80)) := by
  rw [Continues, UInt8.toNat_ofNat']
  omega

/-- The first byte of a character does not continue one, and all others do. -/
theorem continues_encode (c : Char) : ∃ first others, String.utf8EncodeChar c = first :: others ∧
    ¬ Continues first ∧ ∀ b ∈ others, Continues b := by
  have hfirst {n : Nat} (h : n % 256 < 0x80 ∨ 0xC0 ≤ n % 256) : ¬ Continues (.ofNat n) := by
    rw [Continues, UInt8.toNat_ofNat']
    omega
  unfold String.utf8EncodeChar
  dsimp only
  split
  · exact ⟨_, _, rfl, hfirst (by omega), nofun⟩
  split
  · exact ⟨_, _, rfl, hfirst (by omega), List.forall_mem_cons.2 ⟨continues_ofNat _, nofun⟩⟩
  split
  · refine ⟨_, _, rfl, hfirst (by omega), ?_⟩
    exact List.forall_mem_cons.2 ⟨continues_ofNat _, List.forall_mem_cons.2 ⟨continues_ofNat _, nofun⟩⟩
  · refine ⟨_, _, rfl, hfirst (by omega), ?_⟩
    refine List.forall_mem_cons.2 ⟨continues_ofNat _, ?_⟩
    exact List.forall_mem_cons.2 ⟨continues_ofNat _, List.forall_mem_cons.2 ⟨continues_ofNat _, nofun⟩⟩

/-- A lexer stands in a source: what is left is the source from its position on, and what is left of a
character that was taken in part continues it. -/
structure Within (l : Lexer) (symbols : SymbolTable) (source : List Char) : Prop where
  table : l.symbols = symbols
  left : ∃ taken, Matcher.bytes source = taken ++ l.upcoming ∧ l.position = taken.length
  split : ∀ b ∈ l.split, Continues b

namespace Within
variable {symbols : SymbolTable} {source : List Char} {l l' : Lexer}

theorem drop_bytes (h : l.Within symbols source) : (Matcher.bytes source).drop l.position = l.upcoming := by
  obtain ⟨taken, hsource, hposition⟩ := h.left
  rw [hsource, hposition, List.drop_left]

theorem onward (h : l.Within symbols source) (ho : l.Onward l') : l'.Within symbols source where
  table := ho.symbols.trans h.table
  left := by
    obtain ⟨taken, hsource, hposition⟩ := h.left
    obtain ⟨text, hrest, hmoved, hnone⟩ := ho.text
    refine ⟨taken ++ Matcher.bytes text, ?_, ?_⟩
    · by_cases hsplit : l.split = []
      · rw [hsource, upcoming, upcoming, ho.split, hsplit, hrest, Matcher.bytes_append, List.nil_append,
          List.nil_append, List.append_assoc]
      · rw [hnone hsplit] at hrest ⊢
        rw [hsource, upcoming, upcoming, ho.split, hrest, List.nil_append]
        exact congrArg (· ++ _) (List.append_nil taken).symm
    · rw [hmoved, hposition, List.length_append, Matcher.length_bytes]
  split := ho.split ▸ h.split

theorem pastByte (h : l.Within symbols source) {b : UInt8} (hnext : l.nextByte? = some b) :
    l.pastByte.Within symbols source where
  table := (symbols_pastByte l).trans h.table
  left := by
    obtain ⟨taken, hsource, hposition⟩ := h.left
    rw [nextByte?_eq] at hnext
    obtain ⟨more, hmore⟩ := List.head?_eq_some_iff.1 hnext
    refine ⟨taken ++ [b], ?_, ?_⟩
    · rw [hsource, upcoming_pastByte, hmore, List.append_assoc]
      rfl
    · rw [List.length_append, ← hposition]
      unfold Lexer.pastByte
      split <;> rfl
  split := by
    have hkept := h.split
    unfold Lexer.pastByte
    split
    · rename_i first others hsplit
      rw [hsplit] at hkept
      exact (List.forall_mem_cons.1 hkept).2
    · cases l.rest with
      | nil => nofun
      | cons c after =>
        obtain ⟨first, others, hencode, -, hothers⟩ := continues_encode c
        simpa [Matcher.bytes, hencode] using hothers

theorem consumeByte (h : l.Within symbols source) (b : UInt8) :
    (Lexer.consumeByte b l).2.Within symbols source := by
  obtain ⟨start, hmoved, hstays | ⟨hnext, htaken⟩⟩ := consumeByte_cases b l
  · rw [hstays]
    exact h.onward hmoved
  · rw [htaken]
    exact (h.onward hmoved).pastByte hnext

theorem ofSource (source : String) (symbols : SymbolTable) :
    (ofSource source symbols).Within symbols source.toList :=
  ⟨rfl, ⟨[], rfl, rfl⟩, nofun⟩

end Within

/-- The lexers that requests lead to from the start of a source, one after the other, whether they answer or
fault. Of single bytes any may be asked for. -/
inductive Reached (source : String) (symbols : SymbolTable) : Lexer → Prop where
  | start : Reached source symbols (ofSource source symbols)
  | request {l : Lexer} (h : Reached source symbols l) (request : Request) :
    Reached source symbols (request.perform l)
  | byte {l : Lexer} (h : Reached source symbols l) (b : UInt8) : Reached source symbols (consumeByte b l).2

theorem Reached.within {source : String} (h : Reached source (.ofGroups definitions) l) :
    l.Within (.ofGroups definitions) source.toList := by
  induction h with
  | start => exact .ofSource source _
  | request _ request ih =>
    rcases onward_or_byte request ih.table with hmoved | ⟨b, hbyte⟩
    · exact ih.onward hmoved
    · rw [hbyte]
      exact ih.consumeByte b
  | byte _ b ih => exact ih.consumeByte b

end Lexer

end LatentExpr
