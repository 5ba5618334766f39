import LatentExpr.Proofs.Token.Lookahead

/-!
Interned names. A name that an interner holds is answered for its text from then on, with the storage that was new when
the text was first met (`answers_eq_pool`), so two held names share storage exactly when their texts are equal
(`Interner.Holds.sharesStorage_iff`). A lexer only adds to its names. What it shows, also where it only looks ahead,
is what it matched, and carries a held name unless it is a number or a string (`Lexer.Reads`).
-/
namespace LatentExpr

/-! ### Interners -/

namespace Interner
variable {i j k : Interner} {n m : Name}

/-- An interner answers a name for its text. -/
def Holds (i : Interner) (n : Name) : Prop := i.lookup? n.text = some n

/-- One interner holds all names that another one holds. -/
def Extends (i j : Interner) : Prop := ∀ n, i.Holds n → j.Holds n

theorem Extends.refl (i : Interner) : i.Extends i := fun _ h => h

theorem Extends.trans (h : i.Extends j) (h' : j.Extends k) : i.Extends k := fun n hn => h' n (h n hn)

theorem holds_of_lookup? {text : String} (h : i.lookup? text = some n) : i.Holds n := by
  rw [Holds, text_of_lookup? h, h]

/-- Equal texts have one name, and a slot has one text. -/
theorem Holds.sharesStorage_iff (hn : i.Holds n) (hm : i.Holds m) : n.sharesStorage m = true ↔ n.text = m.text := by
  rw [Name.sharesStorage, decide_eq_true_iff]
  constructor
  · intro hstorage
    obtain ⟨a, ha, hna⟩ := Option.map_eq_some_iff.1 hn
    obtain ⟨b, hb, hmb⟩ := Option.map_eq_some_iff.1 hm
    rw [← hna, ← hmb] at hstorage
    obtain rfl := Storage.slot.inj hstorage
    obtain ⟨_, hna, -⟩ := List.idxOf?_eq_some_iff.1 ha
    obtain ⟨_, hma, -⟩ := List.idxOf?_eq_some_iff.1 hb
    exact hna.symm.trans hma
  · intro htext
    rw [Holds, htext] at hn
    rw [Option.some.inj (hn.symm.trans hm)]

theorem idxOf?_concat (texts : List String) (text other : String) : (texts ++ [text]).idxOf? other =
    (texts.idxOf? other).or (if text = other then some texts.length else none) := by
  rw [List.idxOf?, List.findIdx?_append]
  by_cases h : text = other <;> simp [h]

/-- Interning a text answers the same name for it from then on, and changes no other answer. -/
theorem lookup?_intern (i : Interner) (text other : String) :
    (i.intern text).2.lookup? other = if other = text then some (i.intern text).1 else i.lookup? other := by
  unfold intern
  split
  · rename_i name h
    split
    · rename_i heq
      rw [heq, h]
    · rfl
  · rename_i h
    have hnew : i.texts.idxOf? text = none := Option.map_eq_none_iff.1 h
    split
    · rename_i heq
      rw [heq, lookup?, idxOf?_concat, hnew, if_pos rfl]
      rfl
    · rename_i hne
      rw [lookup?, idxOf?_concat, if_neg (Ne.symm hne), Option.or_none]
      rfl

theorem holds_intern (i : Interner) (text : String) : (i.intern text).2.Holds (i.intern text).1 := by
  rw [Holds, lookup?_intern, text_intern, if_pos rfl]

theorem extends_intern (i : Interner) (text : String) : i.Extends (i.intern text).2 := by
  intro n hn
  rw [Holds, lookup?_intern]
  split
  · rename_i heq
    rw [Holds, heq] at hn
    rw [intern, hn]
  · exact hn

/-! ### Calls one after the other -/

/-- A call of an interner: a text is interned, or looked up. -/
inductive Call where
  | intern (text : String)
  | lookup (text : String)
deriving DecidableEq

namespace Call

/-- The name that a call answers. -/
def answer : Call → Interner → Option Name
  | intern text, i => some (i.intern text).1
  | lookup text, i => i.lookup? text

def perform : Call → Interner → Interner
  | intern text, i => (i.intern text).2
  | lookup _, i => i

/-- The text that a call interns. -/
def interned? : Call → Option String
  | intern text => some text
  | lookup _ => none

theorem extends_perform (call : Call) (i : Interner) : i.Extends (call.perform i) := by
  cases call with
  | intern text => exact extends_intern i text
  | lookup => exact .refl i

theorem holds_answer {call : Call} (h : call.answer i = some n) : (call.perform i).Holds n := by
  cases call with
  | intern text =>
    obtain rfl := Option.some.inj h
    exact holds_intern i text
  | lookup => exact holds_of_lookup? h

theorem mem_texts_perform (call : Call) (i : Interner) (text : String) :
    text ∈ (call.perform i).texts ↔ text ∈ i.texts ∨ call = .intern text := by
  cases call with
  | intern other =>
    rw [perform, texts_intern, intern.injEq, eq_comm (a := other)]
    split
    · rename_i hmem
      exact ⟨.inl, fun h => h.elim id fun heq => heq ▸ hmem⟩
    · rw [List.mem_append, List.mem_singleton]
  | lookup => exact ⟨.inl, fun h => h.elim id nofun⟩

theorem nodup_perform (call : Call) (hi : i.texts.Nodup) : (call.perform i).texts.Nodup := by
  cases call with
  | intern text =>
    rw [perform, texts_intern]
    split
    · exact hi
    · rename_i hnew
      exact List.nodup_append.2 ⟨hi, List.nodup_singleton text, fun a ha b hb hab => hnew (by simp_all)⟩
  | lookup => exact hi

end Call

/-- The interner after some calls. -/
def after (i : Interner) (calls : List Call) : Interner := calls.foldl (fun i call => call.perform i) i

/-- What an interner answers to some calls. -/
def answers (i : Interner) : List Call → List (Option Name)
  | [] => []
  | call :: calls => call.answer i :: answers (call.perform i) calls

theorem extends_after (i : Interner) (calls : List Call) : i.Extends (i.after calls) := by
  induction calls generalizing i with
  | nil => exact .refl i
  | cons call calls ih => exact (call.extends_perform i).trans (ih _)

/-- A name that was answered once is held to the end. -/
theorem holds_after {calls : List Call} (h : some n ∈ i.answers calls) : (i.after calls).Holds n := by
  induction calls generalizing i with
  | nil => cases h
  | cons call calls ih =>
    rcases List.mem_cons.1 h with h | h
    · exact extends_after _ calls n (Call.holds_answer h.symm)
    · exact ih h

theorem mem_texts_after (i : Interner) (calls : List Call) (text : String) :
    text ∈ (i.after calls).texts ↔ text ∈ i.texts ∨ .intern text ∈ calls := by
  induction calls generalizing i with
  | nil => simp [after]
  | cons call calls ih =>
    have hrest := ih (call.perform i)
    rw [Call.mem_texts_perform, or_assoc] at hrest
    rw [List.mem_cons, eq_comm (a := Call.intern text)]
    exact hrest

theorem nodup_after (hi : i.texts.Nodup) (calls : List Call) : (i.after calls).texts.Nodup := by
  induction calls generalizing i with
  | nil => exact hi
  | cons call calls ih => exact ih (call.nodup_perform hi)

/-- The texts that some calls intern. -/
def Call.texts (calls : List Call) : Finset String := (calls.filterMap Call.interned?).toFinset

theorem Call.mem_texts {calls : List Call} {text : String} : text ∈ Call.texts calls ↔ .intern text ∈ calls := by
  rw [Call.texts, List.mem_toFinset, List.mem_filterMap]
  constructor
  · rintro ⟨call, hmem, htext⟩
    cases call with
    | intern other => exact Option.some.inj htext ▸ hmem
    | lookup => cases htext
  · exact fun h => ⟨_, h, rfl⟩

theorem size_after (calls : List Call) : (empty.after calls).size = (Call.texts calls).card := by
  have htexts : (empty.after calls).texts.toFinset = Call.texts calls := by
    ext text
    rw [List.mem_toFinset, mem_texts_after, Call.mem_texts]
    exact ⟨fun h => h.elim nofun id, .inr⟩
  have hnodup : (empty.after calls).texts.Nodup := nodup_after List.nodup_nil calls
  rw [← htexts, List.toFinset_card_of_nodup hnodup, size]

theorem isSome_lookup?_after (calls : List Call) (text : String) :
    ((empty.after calls).lookup? text).isSome ↔ .intern text ∈ calls := by
  rw [isSome_lookup?, mem_texts_after]
  exact ⟨fun h => h.elim nofun id, .inr⟩

end Interner

/-! ### Allocation -/

/-- Names that were each given a new storage when their text was first interned. -/
structure NamePool where
  names : List Name
  allocated : Nat

namespace NamePool

def empty : NamePool := ⟨[], 0⟩

def lookup? (p : NamePool) (text : String) : Option Name := p.names.find? fun n => n.text = text

/-- The name of a text, which is allocated on first sight. -/
def intern (p : NamePool) (text : String) : Name × NamePool :=
  match p.lookup? text with
  | some name => (name, p)
  | none =>
    let name : Name := ⟨text, .slot p.allocated⟩
    (name, ⟨name :: p.names, p.allocated + 1⟩)

/-- What a pool answers to some calls. -/
def answers (p : NamePool) : List Interner.Call → List (Option Name)
  | [] => []
  | .intern text :: calls => some (p.intern text).1 :: answers (p.intern text).2 calls
  | .lookup text :: calls => p.lookup? text :: answers p calls

/-- A pool and an interner that answer alike and give the same storage next. -/
structure Agrees (p : NamePool) (i : Interner) : Prop where
  lookup : ∀ text, p.lookup? text = i.lookup? text
  next : p.allocated = i.size

variable {p : NamePool} {i : Interner}

/-- Both give the name that was given before, or else the storage that is next. -/
theorem Agrees.intern (h : p.Agrees i) (text : String) :
    (p.intern text).1 = (i.intern text).1 ∧ (p.intern text).2.Agrees (i.intern text).2 := by
  have hinterned := Interner.lookup?_intern i text
  unfold NamePool.intern
  unfold Interner.intern at hinterned ⊢
  rw [h.lookup text]
  cases hfound : i.lookup? text with
  | some name => exact ⟨rfl, h⟩
  | none =>
    rw [hfound] at hinterned
    dsimp only at hinterned ⊢
    rw [h.next]
    refine ⟨rfl, fun other => ?_, ?_⟩
    · rw [hinterned other, ← h.lookup other, lookup?, List.find?_cons]
      by_cases heq : other = text
      · simp [heq]
      · simp [heq, Ne.symm heq, lookup?]
    · simp [Interner.size]

theorem Agrees.answers (h : p.Agrees i) (calls : List Interner.Call) : i.answers calls = p.answers calls := by
  induction calls generalizing p i with
  | nil => rfl
  | cons call calls ih =>
    cases call with
    | intern text =>
      obtain ⟨hname, hnext⟩ := h.intern text
      rw [NamePool.answers, hname, ← ih hnext]
      rfl
    | lookup text =>
      rw [NamePool.answers, h.lookup text, ← ih h]
      rfl

end NamePool

/-- The storage that an interner finds for a text is the one that was new when the text was first interned. -/
theorem Interner.answers_eq_pool (calls : List Interner.Call) :
    Interner.empty.answers calls = NamePool.empty.answers calls :=
  NamePool.Agrees.answers ⟨fun _ => rfl, rfl⟩ calls

/-! ### Lexers -/

namespace Lexer
variable {α : Type} {definitions : List (String × List String)} {l m : Lexer}

open Lexing Lexeme

/-- A token, or a symbol that was taken by its name, as a lexer shows it. -/
structure Shown where
  kind : TokenKind
  text : String
  name : Option Name
deriving DecidableEq

namespace Shown

def ofToken (t : Token) : Shown := ⟨t.kind, t.text, t.name⟩

def ofSymbol (n : Name) : Shown := ⟨.symbol, n.text, some n⟩

/-- Identifiers and symbols carry a name of their text, numbers and strings carry none. -/
def Named (s : Shown) : Prop :=
  match s.kind with
  | .identifier | .symbol => ∃ n, s.name = some n ∧ n.text = s.text
  | .number | .string => s.name = none

end Shown

/-- One lexer comes from another by reading what is shown, whose name it then holds. -/
structure Reads (l l' : Lexer) (s : Shown) : Prop where
  split : l.split = []
  rest : l.rest = s.text.toList ++ l'.rest
  position : l'.position = l.position + byteCount s.text.toList
  named : s.Named
  held : ∀ n ∈ s.name, l'.interner.Holds n

/-- What comes of a request where the lexer stands: it adds to its names only, and reads what it shows. -/
structure Scans (shown : α → Shown) (l : Lexer) (outcome : Except LexicalError (Option α) × Lexer) : Prop where
  names : l.interner.Extends outcome.2.interner
  reads : ∀ a, outcome.1 = .ok (some a) → l.Reads outcome.2 (shown a)

section
variable {shown : α → Shown}

theorem Scans.nothing (shown : α → Shown) (l : Lexer) : Scans shown l (.ok none, l) := ⟨.refl _, nofun⟩

theorem Scans.fault (e : LexicalError) (mark : LineMark) : Scans shown l (.error e, { l with mark }) :=
  ⟨.refl _, nofun⟩

/-- A request that skips before it looks where the lexer stands. -/
theorem Scans.advance_get {body : Lexer → Lexing (Option α)}
    (h : ∀ m : Lexer, m.symbols = l.symbols → Scans shown m (body m m)) :
    Scans shown (advance l).2 ((advance >>= fun _ => get >>= body) l) := by
  have hkept := (onward_advance l).symbols
  rw [bind_apply]
  cases hadvance : advance l with
  | mk answer m =>
    rw [hadvance] at hkept
    cases answer with
    | error e => exact .fault e m.mark
    | ok _ => exact h m hkept

end

theorem interner_skip (l : Lexer) : (skip l).2.interner = l.interner := by
  fun_induction skip l with
  | case1 | case3 | case6 => rfl
  | case2 _ _ _ _ _ ih | case4 _ _ _ _ _ _ _ _ _ ih | case5 _ _ _ _ _ _ _ ih => exact ih

theorem interner_advance (l : Lexer) : (advance l).2.interner = l.interner := by
  unfold advance
  split
  · exact interner_skip l
  · rfl

theorem extends_advance_bind {body : Unit → Lexing α} (h : ∀ m : Lexer, m.interner.Extends (body () m).2.interner)
    (l : Lexer) : l.interner.Extends ((advance >>= body) l).2.interner := by
  have hkept := interner_advance l
  rw [bind_apply]
  cases hadvance : advance l with
  | mk answer m =>
    rw [hadvance] at hkept
    cases answer with
    | error e => exact hkept ▸ .refl _
    | ok _ => exact hkept ▸ h m

/-- Taking a token from where the rest begins with its text. -/
theorem scans_take (kind : TokenKind) {text rest : List Char} (hsplit : l.split = []) (hrest : l.rest = text ++ rest)
    (mark : LineMark) : Scans .ofToken l ((some <$> take kind text rest) { l with mark }) := by
  have hread (name : Option Name) (interner : Interner)
      (hnamed : (⟨kind, .ofList text, name⟩ : Shown).Named) (hheld : ∀ n ∈ name, interner.Holds n) :
      l.Reads { l.past text rest with mark, interner } ⟨kind, .ofList text, name⟩ :=
    ⟨hsplit, by rw [String.toList_ofList]; exact hrest, by rw [String.toList_ofList]; rfl, hnamed, hheld⟩
  have hinterned := hread (some (l.interner.intern (.ofList text)).1) (l.interner.intern (.ofList text)).2
  have hheld : ∀ n ∈ some (l.interner.intern (.ofList text)).1, (l.interner.intern (.ofList text)).2.Holds n := by
    rintro n ⟨⟩
    exact Interner.holds_intern _ _
  cases kind with
  | number =>
    refine ⟨.refl _, fun t ht => ?_⟩
    cases ht
    exact hread none l.interner rfl nofun
  | string =>
    refine ⟨.refl _, fun t ht => ?_⟩
    cases ht
    exact hread none l.interner rfl nofun
  | identifier =>
    refine ⟨Interner.extends_intern _ _, fun t ht => ?_⟩
    cases ht
    exact hinterned ⟨_, rfl, Interner.text_intern _ _⟩ hheld
  | symbol =>
    refine ⟨Interner.extends_intern _ _, fun t ht => ?_⟩
    cases ht
    exact hinterned ⟨_, rfl, Interner.text_intern _ _⟩ hheld

theorem scans_takeString {quote : Char} {after : List Char} (hsplit : l.split = []) (hrest : l.rest = quote :: after) :
    Scans .ofToken l ((some <$> takeString quote after) l) := by
  have happend := stringTail_append quote after
  rw [takeString]
  simp only [map_apply, bind_apply, get_apply, set_apply]
  generalize stringTail quote after = scanned at happend
  obtain ⟨tail, behind, ending⟩ := scanned
  cases ending with
  | closed =>
    have hwhole : l.rest = (quote :: tail) ++ behind := by rw [List.cons_append, happend, hrest]
    exact scans_take .string hsplit hwhole _
  | unterminated => exact .fault _ _

theorem scans_takeSymbol {c : Char} (hsplit : l.split = []) (ht : l.symbols = .ofGroups definitions) :
    Scans .ofToken l ((some <$> takeSymbol c) l) := by
  rw [takeSymbol]
  simp only [map_apply, bind_apply, get_apply]
  cases hlong : l.symbols.all.longestIn? l.rest with
  | none => exact .fault _ l.mark
  | some symbol =>
    rw [ht] at hlong
    exact scans_take .symbol hsplit (Matcher.eq_append_drop_of_longestIn? hlong) l.mark

theorem scans_nextIdentifier? (l : Lexer) : Scans .ofToken (advance l).2 (nextIdentifier? l) := by
  refine .advance_get fun m _ => ?_
  cases hreadable : m.readable with
  | nil => exact .nothing _ m
  | cons c after =>
    obtain ⟨hsplit, -⟩ := split_eq_nil_of_readable hreadable
    dsimp only
    split
    · exact scans_take _ hsplit (identifier_append _).symm m.mark
    · exact .nothing _ m

theorem scans_nextToken? (ht : l.symbols = .ofGroups definitions) :
    Scans .ofToken (advance l).2 (nextToken? l) := by
  refine .advance_get fun m hm => ?_
  cases hreadable : m.readable with
  | nil => exact .nothing _ m
  | cons c after =>
    obtain ⟨hsplit, hrest⟩ := split_eq_nil_of_readable hreadable
    dsimp only
    by_cases hzero : c = '0'
    · rw [if_pos hzero]
      exact scans_take _ hsplit (fromZero_append _).symm m.mark
    by_cases hdecimal : (c.isDigit || (c = '.' && after.head?.any Char.isDigit)) = true
    · rw [if_neg hzero, if_pos hdecimal]
      exact scans_take _ hsplit (decimal_append _).symm m.mark
    by_cases hident : Text.isIdentStart c = true
    · rw [if_neg hzero, if_neg hdecimal, if_pos hident]
      exact scans_take _ hsplit (identifier_append _).symm m.mark
    rw [if_neg hzero, if_neg hdecimal, if_neg hident]
    split
    · exact scans_takeString hsplit hrest
    · exact scans_takeSymbol hsplit (hm.trans ht)

theorem reads_pastSymbol {symbol : String} (hsplit : l.split = [])
    (hrest : l.rest = symbol.toList ++ l.rest.drop symbol.length) :
    l.Reads { l.pastSymbol symbol with interner := (l.interner.intern symbol).2 }
      (.ofSymbol (l.interner.intern symbol).1) where
  split := hsplit
  rest := by
    rw [Shown.ofSymbol, Interner.text_intern]
    exact hrest
  position := by
    rw [Shown.ofSymbol, Interner.text_intern]
    rfl
  named := ⟨_, rfl, rfl⟩
  held := by
    rintro n ⟨⟩
    exact Interner.holds_intern _ _

theorem scans_consumeSymbol? (group : OperatorGroup) (ht : l.symbols = .ofGroups definitions) :
    Scans .ofSymbol (advance l).2 (consumeSymbol? group l) := by
  refine .advance_get fun m hm => ?_
  cases hreadable : m.readable with
  | nil => exact .nothing _ m
  | cons c after =>
    obtain ⟨hsplit, hrest⟩ := split_eq_nil_of_readable hreadable
    simp only [List.isEmpty_cons, Bool.false_eq_true, if_false]
    cases (m.symbols.group? group.name).bind (·.longestIn? (c :: after)) with
    | none => exact .nothing _ m
    | some symbol =>
      dsimp only
      split
      · rename_i hlong
        rw [← hrest, hm, ht] at hlong
        refine ⟨Interner.extends_intern _ _, ?_⟩
        rintro n ⟨⟩
        exact reads_pastSymbol hsplit (Matcher.eq_append_drop_of_longestIn? hlong)
      · exact .nothing _ m

/-! ### Requests and what they show -/

/-- What a request shows. -/
def Request.shown? : Request → Lexer → Option Shown
  | consumeSymbol group, l => ((Lexer.consumeSymbol? group).run l).1.toOption.join.map .ofSymbol
  | nextIdentifier, l => (Lexer.nextIdentifier?.run l).1.toOption.join.map .ofToken
  | nextToken, l => (Lexer.nextToken?.run l).1.toOption.join.map .ofToken
  | peekToken, l => (Lexer.peekToken?.run l).1.toOption.join.map .ofToken
  | advance, _ | peek, _ | peekByte, _ | hasRemaining, _ | consume .., _ | consumeText _, _ | foundText, _ => none

/-- The lexer behind what a request shows, which a token that is only looked at is not taken to. -/
def Request.behind : Request → Lexer → Lexer
  | peekToken, l => (Lexer.nextToken?.run l).2
  | request, l => request.perform l

theorem Scans.reads_of_shown? {shown : α → Shown} {outcome : Except LexicalError (Option α) × Lexer} {s : Shown}
    (h : Scans shown l outcome) (hs : outcome.1.toOption.join.map shown = some s) : l.Reads outcome.2 s := by
  obtain ⟨a, ha, rfl⟩ := Option.map_eq_some_iff.1 hs
  obtain ⟨answer, rest⟩ := outcome
  cases answer with
  | error e => cases ha
  | ok found =>
    obtain rfl : found = some a := ha
    exact h.reads a rfl

/-- Looking at a token leaves the names that taking it does. -/
theorem interner_peekToken? (l : Lexer) : (peekToken? l).2.interner = (nextToken? l).2.interner := by
  rw [peekToken?, bind_apply]
  cases hadvance : advance l with
  | mk answer m =>
    cases answer with
    | error e => rw [nextToken?, bind_apply, hadvance]
    | ok _ =>
      have hnext : nextToken? m = nextToken? l := request_of_advance rfl hadvance
      rw [← hnext]
      rfl

theorem Request.interner_behind (request : Request) (l : Lexer) :
    (request.behind l).interner = (request.perform l).interner := by
  cases request with
  | peekToken => exact (interner_peekToken? l).symm
  | _ => rfl

/-- Whatever a request shows was read from where the lexer stood behind blanks. -/
theorem Request.reads {request : Request} {s : Shown} (ht : l.symbols = .ofGroups definitions)
    (h : request.shown? l = some s) : (Lexer.advance l).2.Reads (request.behind l) s := by
  cases request with
  | consumeSymbol group => exact (scans_consumeSymbol? group ht).reads_of_shown? h
  | nextIdentifier => exact (scans_nextIdentifier? l).reads_of_shown? h
  | nextToken => exact (scans_nextToken? ht).reads_of_shown? h
  | peekToken =>
    rw [shown?] at h
    refine (scans_nextToken? ht).reads_of_shown? ?_
    rw [← fst_peekToken?]
    exact h
  | advance | peek | peekByte | hasRemaining | consume | consumeText | foundText => cases h

theorem Scans.extends {shown : α → Shown} {outcome : Except LexicalError (Option α) × Lexer}
    (h : Scans shown (Lexer.advance l).2 outcome) : l.interner.Extends outcome.2.interner :=
  interner_advance l ▸ h.names

theorem extends_peekToken? (ht : l.symbols = .ofGroups definitions) :
    l.interner.Extends (peekToken? l).2.interner := by
  rw [interner_peekToken?]
  exact (scans_nextToken? ht).extends

theorem interner_pastByte (l : Lexer) : l.pastByte.interner = l.interner := by
  unfold pastByte
  split <;> rfl

theorem extends_consumeByte (b : UInt8) (l : Lexer) : l.interner.Extends (consumeByte b l).2.interner := by
  refine extends_advance_bind (fun m => ?_) l
  rw [bind_apply, get_apply]
  dsimp only
  split
  · exact interner_pastByte m ▸ .refl _
  · exact .refl _

theorem extends_consumeText (text : String) (l : Lexer) : l.interner.Extends (consumeText text l).2.interner := by
  refine extends_advance_bind (fun m => ?_) l
  rw [bind_apply, get_apply]
  dsimp only
  split <;> exact .refl _

theorem Request.extends_perform (request : Request) (ht : l.symbols = .ofGroups definitions) :
    l.interner.Extends (request.perform l).interner := by
  cases request with
  | advance => exact interner_advance l ▸ .refl _
  | peek => exact extends_advance_bind (fun _ => .refl _) l
  | peekByte => exact extends_advance_bind (fun _ => .refl _) l
  | hasRemaining =>
    show l.interner.Extends (Lexer.hasRemaining l).2.interner
    rw [Lexer.hasRemaining, ← map_eq_pure_bind, snd_map]
    exact extends_advance_bind (fun _ => .refl _) l
  | consume b => exact extends_consumeByte b l
  | consumeSymbol group => exact (scans_consumeSymbol? group ht).extends
  | consumeText text => exact extends_consumeText text l
  | nextIdentifier => exact (scans_nextIdentifier? l).extends
  | nextToken => exact (scans_nextToken? ht).extends
  | peekToken => exact extends_peekToken? ht
  | foundText =>
    show l.interner.Extends (Lexer.foundText l).2.interner
    rw [snd_foundText]
    exact extends_peekToken? ht

/-! ### Sessions and what they show -/

/-- What is asked of a lexer: one of the requests, or any single byte. -/
inductive Pull where
  | request (request : Request)
  | byte (b : UInt8)

/-- What is shown, and the offsets between which it was matched. -/
structure Sighting extends Shown where
  start : Nat
  stop : Nat
deriving DecidableEq

namespace Pull

def perform : Pull → Lexer → Lexer
  | request r, l => r.perform l
  | byte b, l => (Lexer.consumeByte b l).2

/-- What is shown. The match starts behind blanks and comments. -/
def sighting? : Pull → Lexer → Option Sighting
  | request r, l => (r.shown? l).map fun s => ⟨s, (Lexer.advance l).2.position, (r.behind l).position⟩
  | byte _, _ => none

end Pull

/-- Everything that a session shows. -/
def sightings (l : Lexer) : List Pull → List Sighting
  | [] => []
  | pull :: pulls => (pull.sighting? l).toList ++ sightings (pull.perform l) pulls

/-- The lexer at the end of a session. -/
def afterPulls (l : Lexer) (pulls : List Pull) : Lexer := pulls.foldl (fun l pull => pull.perform l) l

section
variable {source : String} {symbols : SymbolTable}

theorem Reached.pull (h : l.Reached source symbols) (pull : Pull) : (pull.perform l).Reached source symbols := by
  cases pull with
  | request r => exact h.request r
  | byte b => exact h.byte b

theorem Pull.extends_perform (pull : Pull) (ht : l.symbols = .ofGroups definitions) :
    l.interner.Extends (pull.perform l).interner := by
  cases pull with
  | request r => exact r.extends_perform ht
  | byte b => exact extends_consumeByte b l

theorem Reached.extends_afterPulls (h : l.Reached source (.ofGroups definitions)) (pulls : List Pull) :
    l.interner.Extends (l.afterPulls pulls).interner := by
  induction pulls generalizing l with
  | nil => exact .refl _
  | cons pull pulls ih => exact (pull.extends_perform h.within.table).trans (ih (h.pull pull))

/-- What was matched is the text that is shown. -/
theorem Within.slice_of_reads {text : List Char} {m : Lexer} {s : Shown} (h : l.Within symbols text)
    (hs : l.Reads m s) : Matcher.slice text l.position m.position = Matcher.bytes s.text.toList := by
  obtain ⟨taken, hsource, hposition⟩ := h.left
  rw [upcoming, hs.split, hs.rest, List.nil_append, Matcher.bytes_append] at hsource
  rw [Matcher.slice, hs.position, hsource, hposition, ← Matcher.length_bytes, ← List.append_assoc,
    ← List.length_append, List.take_left, List.drop_left]

/-- A thing that was seen is what was matched, and it is named by what the interner holds. -/
structure Sighting.Exact (source : List Char) (i : Interner) (s : Sighting) : Prop where
  matched : Matcher.slice source s.start s.stop = Matcher.bytes s.text.toList
  named : s.Named
  held : ∀ n ∈ s.name, i.Holds n

theorem Reached.exact_of_sighting? (h : l.Reached source (.ofGroups definitions)) {pull : Pull} {s : Sighting}
    (hs : pull.sighting? l = some s) : s.Exact source.toList (pull.perform l).interner := by
  cases pull with
  | byte => cases hs
  | request r =>
    obtain ⟨shown, hshown, rfl⟩ := Option.map_eq_some_iff.1 hs
    have hreads := r.reads h.within.table hshown
    have hheld := hreads.held
    rw [r.interner_behind l] at hheld
    exact ⟨(h.within.onward (onward_advance l)).slice_of_reads hreads, hreads.named, hheld⟩

theorem Reached.exact_of_mem_sightings (h : l.Reached source (.ofGroups definitions)) (pulls : List Pull) :
    ∀ s ∈ l.sightings pulls, s.Exact source.toList (l.afterPulls pulls).interner := by
  induction pulls generalizing l with
  | nil => nofun
  | cons pull pulls ih =>
    intro s hs
    have hnext := h.pull pull
    rcases List.mem_append.1 hs with hs | hs
    · -- a name that is shown now is still held at the end
      obtain ⟨hmatched, hnamed, hheld⟩ := h.exact_of_sighting? (Option.mem_toList.1 hs)
      exact ⟨hmatched, hnamed, fun n hn => hnext.extends_afterPulls pulls n (hheld n hn)⟩
    · exact ih hnext s hs

end

/-- Whatever a session asks for, of any source and with any table, and also behind faults: what it shows, by taking
it or by looking ahead, is the text that was matched; an identifier or symbol carries a name of that text, a number or
string none; and two names share storage exactly when their texts are equal. An interner holds, after any calls, the
texts that were interned: it counts each of them once, finds them and no others, and looking up adds none. It answers
the storage that was allocated for a text when it was first interned. -/
theorem interning_exact :
    (∀ (source : String) (definitions : List (String × List String)) (pulls : List Pull),
      let seen := (ofSource source (.ofGroups definitions)).sightings pulls
      (∀ s ∈ seen, Matcher.slice source.toList s.start s.stop = Matcher.bytes s.text.toList ∧ s.Named) ∧
        ∀ s ∈ seen, ∀ s' ∈ seen, ∀ n ∈ s.name, ∀ n' ∈ s'.name, n.sharesStorage n' = true ↔ n.text = n'.text) ∧
    ∀ calls : List Interner.Call,
      (Interner.empty.after calls).size = (Interner.Call.texts calls).card ∧
      (∀ text, ((Interner.empty.after calls).lookup? text).isSome ↔ .intern text ∈ calls) ∧
      Interner.empty.answers calls = NamePool.empty.answers calls ∧
      ∀ n n', some n ∈ Interner.empty.answers calls → some n' ∈ Interner.empty.answers calls →
        (n.sharesStorage n' = true ↔ n.text = n'.text) := by
  refine ⟨fun source definitions pulls => ?_, fun calls => ⟨?_, ?_, ?_, fun n n' hn hn' => ?_⟩⟩
  · have hstart : (ofSource source (.ofGroups definitions)).Reached source (.ofGroups definitions) := .start
    have hexact := hstart.exact_of_mem_sightings pulls
    refine ⟨fun s hs => ⟨(hexact s hs).matched, (hexact s hs).named⟩, fun s hs s' hs' n hn n' hn' => ?_⟩
    exact ((hexact s hs).held n hn).sharesStorage_iff ((hexact s' hs').held n' hn')
  · exact Interner.size_after calls
  · exact Interner.isSome_lookup?_after calls
  · exact Interner.answers_eq_pool calls
  · exact (Interner.holds_after hn).sharesStorage_iff (Interner.holds_after hn')

/-- A name is looked at before it is taken, a symbol is taken by its group, a string breaks off, and the name that comes
again has the storage of the first one, which only the calls that interned it count. -/
theorem interning_exact_behind_fault :
    (ofSource "ab+ab 'c" (.ofGroups [("Additive", ["+", "++"])])).sightings
        [.request .peekToken, .byte 43, .request .nextToken, .request (.consumeSymbol .additive), .request .nextToken,
          .request .nextToken] =
      [⟨⟨.identifier, "ab", some ⟨"ab", .slot 0⟩⟩, 0, 2⟩, ⟨⟨.identifier, "ab", some ⟨"ab", .slot 0⟩⟩, 0, 2⟩,
        ⟨⟨.symbol, "+", some ⟨"+", .slot 1⟩⟩, 2, 3⟩, ⟨⟨.identifier, "ab", some ⟨"ab", .slot 0⟩⟩, 3, 5⟩] ∧
      ((⟨"ab", .slot 0⟩ : Name).sharesStorage ⟨"+", .slot 1⟩ = true ↔ "ab" = "+") ∧
      (Interner.empty.answers [.lookup "ab", .intern "ab", .lookup "ab"] =
          [none, some ⟨"ab", .slot 0⟩, some ⟨"ab", .slot 0⟩] ∧
        ((⟨"ab", .slot 0⟩ : Name).sharesStorage ⟨"ab", .slot 0⟩ = true ↔ "ab" = "ab")) := by
  have hseen : (ofSource "ab+ab 'c" (.ofGroups [("Additive", ["+", "++"])])).sightings
      [.request .peekToken, .byte 43, .request .nextToken, .request (.consumeSymbol .additive), .request .nextToken,
        .request .nextToken] =
      [⟨⟨.identifier, "ab", some ⟨"ab", .slot 0⟩⟩, 0, 2⟩, ⟨⟨.identifier, "ab", some ⟨"ab", .slot 0⟩⟩, 0, 2⟩,
        ⟨⟨.symbol, "+", some ⟨"+", .slot 1⟩⟩, 2, 3⟩, ⟨⟨.identifier, "ab", some ⟨"ab", .slot 0⟩⟩, 3, 5⟩] := by
    decide +kernel
  refine ⟨hseen, ?_, by decide, ?_⟩
  · exact (interning_exact.1 "ab+ab 'c" [("Additive", ["+", "++"])] _).2 _ (hseen ▸ List.mem_cons_self) _
      (hseen ▸ List.mem_cons_of_mem _ (List.mem_cons_of_mem _ List.mem_cons_self)) _ rfl _ rfl
  · exact (interning_exact.2 [.lookup "ab", .intern "ab", .lookup "ab"]).2.2.2 _ _ (by decide) (by decide)

end Lexer

end LatentExpr
