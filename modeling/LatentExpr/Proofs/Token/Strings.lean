import LatentExpr.Eval.Interpreter
import LatentExpr.Proofs.Print.RoundTrip
import LatentExpr.Proofs.Token.Tables

/-!
The constants that denote strings. What stands between the quotes of a string is one sequence of characters for
themselves and of characters behind a backslash (`StringUnit`): that is how it is gone through when it is looked for
its end, and that is how it is read when it is evaluated. Every string has a constant that denotes it, for either
quote (`quoted`).
-/
namespace LatentExpr

open Lexeme

/-- A part of what stands between two quotes: a character for itself, or a backslash and a character. -/
inductive StringUnit where
  | plain (c : Char)
  | escape (c : Char)
deriving DecidableEq

namespace StringUnit

/-- How a unit is written. -/
def text : StringUnit → List Char
  | plain c => [c]
  | escape c => ['\\', c]

/-- The character that a unit stands for. -/
def meaning : StringUnit → Char
  | plain c => c
  | escape 'n' => '\n'
  | escape 't' => '\t'
  | escape 'r' => '\r'
  | escape c => c

/-- Whether a unit may stand between two quotes: by itself neither the quote nor a backslash nor a line feed may. -/
def Fits (quote : Char) : StringUnit → Prop
  | plain c => c ≠ quote ∧ c ≠ '\\' ∧ c ≠ '\n'
  | escape _ => True

theorem Fits.ne_backslash {quote : Char} {u : StringUnit} (h : u.Fits quote) : u ≠ plain '\\' := by
  rintro rfl
  exact h.2.1 rfl

/-- The first unit of a text is known by its characters. -/
theorem text_append_inj {u v : StringUnit} {a b : List Char} (hu : u ≠ plain '\\') (hv : v ≠ plain '\\')
    (h : u.text ++ a = v.text ++ b) : u = v ∧ a = b := by
  cases u with
  | plain c =>
    cases v with
    | plain d =>
      obtain ⟨rfl, rfl⟩ := List.cons.inj h
      exact ⟨rfl, rfl⟩
    | escape d =>
      obtain ⟨rfl, -⟩ := List.cons.inj h
      exact absurd rfl hu
  | escape c =>
    cases v with
    | plain d =>
      obtain ⟨rfl, -⟩ := List.cons.inj h
      exact absurd rfl hv
    | escape d =>
      obtain ⟨rfl, rfl⟩ := List.cons.inj (List.cons.inj h).2
      exact ⟨rfl, rfl⟩

theorem escapeOf_eq (c : Char) : Constant.escapeOf c = (escape c).meaning := by
  unfold Constant.escapeOf meaning
  split <;> rename_i hn
  · subst hn
    rfl
  split <;> rename_i ht
  · subst ht
    rfl
  split <;> rename_i hr
  · subst hr
    rfl
  split <;> simp_all

end StringUnit

/-- Some units that may stand between two quotes, and what they are written as. -/
structure Split (quote : Char) (body : List Char) (units : List StringUnit) : Prop where
  fits : ∀ u ∈ units, u.Fits quote
  text : units.flatMap StringUnit.text = body

namespace Split
variable {quote : Char} {body : List Char} {units : List StringUnit}

theorem nil : Split quote [] [] := ⟨nofun, rfl⟩

theorem cons {u : StringUnit} (hu : u.Fits quote) (h : Split quote body units) :
    Split quote (u.text ++ body) (u :: units) where
  fits := List.forall_mem_cons.2 ⟨hu, h.fits⟩
  text := by rw [List.flatMap_cons, h.text]

/-- Of some units the first ones come off alike: what is left of a text behind any units is what is left behind as
many of its own. -/
theorem behind {read : List StringUnit} {rest : List Char} (h : Split quote body units)
    (hread : ∀ u ∈ read, u ≠ .plain '\\') (hbody : body = read.flatMap StringUnit.text ++ rest) :
    ∃ more, units = read ++ more ∧ Split quote rest more := by
  induction read generalizing body units with
  | nil =>
    rw [hbody] at h
    exact ⟨units, rfl, h⟩
  | cons u read ih =>
    obtain ⟨hu, hmore⟩ := List.forall_mem_cons.1 hread
    rw [List.flatMap_cons, List.append_assoc] at hbody
    cases units with
    | nil =>
      rw [← h.text] at hbody
      cases u <;> cases hbody
    | cons v units =>
      obtain ⟨hv, hfits⟩ := List.forall_mem_cons.1 h.fits
      have htext := h.text
      rw [List.flatMap_cons, hbody] at htext
      obtain ⟨rfl, hrest⟩ := StringUnit.text_append_inj hv.ne_backslash hu htext
      exact (ih ⟨hfits, hrest⟩ hmore rfl).imp fun more h => ⟨congrArg _ h.1, h.2⟩

/-- There is only one way to split a text. -/
theorem unique {units' : List StringUnit} (h : Split quote body units) (h' : Split quote body units') :
    units' = units := by
  have hread : body = units'.flatMap StringUnit.text ++ [] := by rw [List.append_nil, h'.text]
  obtain ⟨more, rfl, hmore⟩ := h.behind (fun u hu => (h'.fits u hu).ne_backslash) hread
  cases more with
  | nil => exact (List.append_nil _).symm
  | cons u more => cases u <;> cases hmore.text

/-- No backslash is left alone at the end. -/
theorem ne_backslash (h : Split quote body units) : body ≠ ['\\'] := by
  rintro rfl
  cases units with
  | nil => cases h.text
  | cons u units =>
    have htext := h.text
    cases u with
    | plain c =>
      obtain ⟨rfl, -⟩ := List.cons.inj htext
      exact absurd rfl (h.fits _ List.mem_cons_self).ne_backslash
    | escape c => cases (List.cons.inj htext).2

/-- What is read of a text are the meanings of its units. -/
theorem unescape (h : Split quote body units) : Constant.unescape body = units.map StringUnit.meaning := by
  obtain ⟨hfits, rfl⟩ := h
  induction units with
  | nil => rfl
  | cons u units ih =>
    obtain ⟨hu, hfits⟩ := List.forall_mem_cons.1 hfits
    rw [List.flatMap_cons, List.map_cons, ← ih hfits]
    cases u with
    | plain c =>
      obtain ⟨-, hslash, -⟩ := hu
      rw [StringUnit.text, List.singleton_append, Constant.unescape]
      · rfl
      · exact fun h => absurd h hslash
      · exact fun _ _ h => absurd h hslash
    | escape c =>
      rw [StringUnit.text, List.cons_append, List.singleton_append, Constant.unescape, StringUnit.escapeOf_eq]

/-- A string is gone through by its units, up to the quote behind them. -/
theorem stringTail (hquote : quote ≠ '\\') (h : Split quote body units) (rest : List Char) :
    Lexeme.stringTail quote (body ++ quote :: rest) = (body ++ [quote], rest, .closed) := by
  obtain ⟨hfits, rfl⟩ := h
  induction units with
  | nil =>
    rw [List.flatMap_nil, List.nil_append, Lexeme.stringTail, if_pos rfl]
    · rfl
    · exact fun h => absurd h hquote
    · exact fun _ _ h => absurd h hquote
  | cons u units ih =>
    obtain ⟨hu, hmore⟩ := List.forall_mem_cons.1 hfits
    rw [List.flatMap_cons, List.append_assoc, List.append_assoc]
    cases u with
    | plain c =>
      obtain ⟨hc, hslash, hfeed⟩ := hu
      rw [StringUnit.text, List.singleton_append, Lexeme.stringTail, if_neg hc, if_neg hfeed, ih hmore]
      · rfl
      · exact fun h => absurd h hslash
      · exact fun _ _ h => absurd h hslash
    | escape c =>
      rw [StringUnit.text, List.cons_append, List.singleton_append, Lexeme.stringTail, ih hmore]
      rfl

end Split

/-- What is found between two quotes can be split. -/
theorem split_of_stringTail {quote : Char} {text tail rest : List Char}
    (h : stringTail quote text = (tail, rest, .closed)) :
    ∃ body units, tail = body ++ [quote] ∧ Split quote body units := by
  fun_induction stringTail quote text generalizing tail with
  | case1 | case2 | case5 => cases h
  | case3 c _ _ _ _ hs ih =>
    obtain ⟨rfl, hrest⟩ := Prod.mk.inj h
    obtain ⟨body, units, rfl, hsplit⟩ := ih (hs.trans (congrArg (_, ·) hrest))
    exact ⟨_, .escape c :: units, rfl, hsplit.cons trivial⟩
  | case4 =>
    obtain ⟨rfl, -⟩ := Prod.mk.inj h
    exact ⟨[], [], rfl, .nil⟩
  | case6 c rest' hlast hescape hc hfeed _ _ _ hs ih =>
    obtain ⟨rfl, hrest⟩ := Prod.mk.inj h
    obtain ⟨body, units, rfl, hsplit⟩ := ih (hs.trans (congrArg (_, ·) hrest))
    have hslash : c ≠ '\\' := by
      intro hslash
      cases rest' with
      | nil => exact hlast hslash rfl
      | cons d more => exact hescape d more hslash rfl
    exact ⟨_, .plain c :: units, rfl, hsplit.cons (u := .plain c) ⟨hc, hslash, hfeed⟩⟩

/-! ### Tokens -/

/-- The text of a token that is a string. -/
theorem split_of_lexeme? {m : Matcher} {start rest : List Char} {s : String}
    (h : lexeme? m start = some (.string s, rest)) :
    ∃ quote body units, Text.isQuote quote = true ∧ s.toList = quote :: (body ++ [quote]) ∧ Split quote body units := by
  cases first_of_lexeme? h with
  | @string c _ _ _ hquote htail =>
    obtain ⟨body, units, rfl, hsplit⟩ := split_of_stringTail htail
    exact ⟨c, body, units, hquote, String.toList_ofList, hsplit⟩

theorem quote_cases {quote : Char} (h : Text.isQuote quote = true) : quote = '\'' ∨ quote = '"' := by
  rwa [Text.isQuote, Bool.or_eq_true, beq_iff_eq, beq_iff_eq] at h

/-- The quotes are taken off. -/
theorem inner_quoted {quote : Char} (hquote : Text.isQuote quote = true) (body : List Char) :
    Constant.inner (quote :: (body ++ [quote])) = body := by
  have hsize : quote.utf8Size = 1 := by
    rcases quote_cases hquote with rfl | rfl <;> rfl
  rw [Constant.inner, List.getLast?_concat]
  dsimp only
  rw [if_pos ⟨hsize, hsize⟩, List.dropLast_concat]

theorem Split.value {quote : Char} {body : List Char} {units : List StringUnit} (hquote : Text.isQuote quote = true)
    (h : Split quote body units) {text : String} (htext : text.toList = quote :: (body ++ [quote])) :
    Constant.value .string text = .string (String.ofList (units.map StringUnit.meaning)) := by
  rw [Constant.value, Constant.stringOf, htext, inner_quoted hquote, h.unescape]

/-! ### Every string -/

/-- A text between quotes: a backslash before each backslash and each quote, and a backslash and `n` for each line
feed. -/
def quoted (quote : Char) (text : List Char) : List Char :=
  quote :: (text.flatMap fun c => if c = '\n' then ['\\', 'n'] else if c = '\\' ∨ c = quote then ['\\', c] else [c]) ++
    [quote]

/-- The unit that a character is written as. -/
def StringUnit.of (quote c : Char) : StringUnit :=
  if c = '\n' then escape 'n' else if c = '\\' ∨ c = quote then escape c else plain c

theorem split_quoted (quote : Char) (text : List Char) :
    ∃ body, quoted quote text = quote :: (body ++ [quote]) ∧ Split quote body (text.map (.of quote)) := by
  refine ⟨_, rfl, ?_, ?_⟩
  · intro u hu
    obtain ⟨c, -, rfl⟩ := List.mem_map.1 hu
    unfold StringUnit.of
    split
    · trivial
    split
    · trivial
    · rename_i hfeed hother
      exact ⟨fun h => hother (.inr h), fun h => hother (.inl h), hfeed⟩
  · rw [List.flatMap_map]
    refine List.flatMap_congr fun c _ => ?_
    unfold StringUnit.of
    split
    · rfl
    split <;> rfl

theorem StringUnit.meaning_of {quote : Char} (hquote : Text.isQuote quote = true) (c : Char) :
    (StringUnit.of quote c).meaning = c := by
  unfold StringUnit.of
  split
  · rename_i hfeed
    exact hfeed.symm
  split
  · rename_i hc
    obtain rfl | rfl := hc
    · rfl
    · rcases quote_cases hquote with rfl | rfl <;> rfl
  · rfl

/-- A string in quotes is one lexeme. -/
theorem lexeme?_quoted (m : Matcher) {quote : Char} (hquote : Text.isQuote quote = true) (text : List Char) :
    lexeme? m (quoted quote text) = some (.string (String.ofList (quoted quote text)), []) := by
  obtain ⟨body, hbody, hsplit⟩ := split_quoted quote text
  have hslash : quote ≠ '\\' := by
    rcases quote_cases hquote with rfl | rfl <;> decide
  rw [hbody]
  exact lexeme?_string hquote (hsplit.stringTail hslash [])

/-- A constant that is a token is parsed from its text. -/
theorem parse_of_lexed {kind : ConstantKind} {text : String} (h : Piece.Lexed ⟨kind.token, text⟩) :
    Expr.parse text .builtIn = .ok (.constant kind text) := by
  have hparse := Expr.parse_print_of_wellFormed (e := .constant kind text) h rfl
  rwa [Expr.print] at hparse

/-- The constant that denotes a string. -/
def constantOf (quote : Char) (s : String) : String := String.ofList (quoted quote s.toList)

section
variable {quote : Char} (hquote : Text.isQuote quote = true) (s : String)
include hquote

theorem lexeme?_constantOf (m : Matcher) :
    lexeme? m (constantOf quote s).toList = some (.string (constantOf quote s), []) := by
  rw [constantOf, String.toList_ofList]
  exact lexeme?_quoted m hquote s.toList

theorem tokenize_constantOf (t : SymbolTable) :
    ∃ token, tokenize (constantOf quote s) t = ([token], none) ∧ token.piece = .string (constantOf quote s) := by
  have htoken := tokenize_text (t := t) (lexeme?_constantOf hquote s t.all) nofun
  rwa [Piece.text_string] at htoken

theorem parse_constantOf : Expr.parse (constantOf quote s) .builtIn = .ok (.constant .string (constantOf quote s)) :=
  parse_of_lexed ⟨_, _, lexeme?_constantOf hquote s _⟩

theorem value_constantOf : Constant.value .string (constantOf quote s) = .string s := by
  obtain ⟨body, hbody, hsplit⟩ := split_quoted quote s.toList
  have htext : (constantOf quote s).toList = quote :: (body ++ [quote]) := String.toList_ofList.trans hbody
  have hmeanings : (s.toList.map (.of quote)).map StringUnit.meaning = s.toList := by
    rw [List.map_map]
    exact (List.map_congr_left fun c _ => StringUnit.meaning_of hquote c).trans (List.map_id _)
  rw [hsplit.value hquote htext, hmeanings, String.ofList_toList]

end

/-- A text between two quotes is read as it was gone through: it is split into units in just one way, the value of
the constant are their meanings, and behind whatever has been read of it no backslash is left alone. -/
structure Agreed (quote : Char) (body : List Char) (text : String) : Prop where
  isQuote : Text.isQuote quote = true
  quotes : text.toList = quote :: (body ++ [quote])
  units : ∃ units, (∀ other, Split quote body other ↔ other = units) ∧
    Constant.value .string text = .string (String.ofList (units.map StringUnit.meaning))
  left : ∀ (read : List StringUnit) (rest : List Char), (∀ u ∈ read, u ≠ .plain '\\') →
    body = read.flatMap StringUnit.text ++ rest → rest ≠ ['\\']

theorem agreed_of_lexeme? {m : Matcher} {start rest : List Char} {s : String}
    (h : lexeme? m start = some (.string s, rest)) : ∃ quote body, Agreed quote body s := by
  obtain ⟨quote, body, units, hquote, htext, hsplit⟩ := split_of_lexeme? h
  refine ⟨quote, body, hquote, htext, ⟨units, fun other => ⟨hsplit.unique, ?_⟩, hsplit.value hquote htext⟩, ?_⟩
  · rintro rfl
    exact hsplit
  · intro read left hread hbody
    obtain ⟨more, -, hmore⟩ := hsplit.behind hread hbody
    exact hmore.ne_backslash

/-- Every token that is a string, in whatever source and also before a fault, is read as it was gone through. And
every string in quotes is a single token and a constant that denotes the string. -/
theorem string_constants :
    (∀ (definitions : List (String × List String)) (source : String),
      ∀ t ∈ (tokenize source (.ofGroups definitions)).1, t.kind = .string → ∃ quote body, Agreed quote body t.text) ∧
      ∀ (s : String) (quote : Char), Text.isQuote quote = true →
        (∀ definitions : List (String × List String),
          ∃ t, tokenize (constantOf quote s) (.ofGroups definitions) = ([t], none) ∧
            t.piece = .string (constantOf quote s)) ∧
          Expr.parse (constantOf quote s) .builtIn = .ok (.constant .string (constantOf quote s)) ∧
            ∀ (σ : Type) (setting : Setting σ) (scope : Scope) (w : World σ),
              (Expr.constant .string (constantOf quote s)).invoke setting scope w = (.finished (.string s), w) := by
  constructor
  · intro definitions source t ht hkind
    obtain ⟨start, rest, hlexeme⟩ := lexeme?_of_mem_tokenize ht
    have hpiece : t.piece = .string t.text := by rw [Token.piece, hkind]; rfl
    exact agreed_of_lexeme? (hpiece ▸ hlexeme)
  · intro s quote hquote
    refine ⟨fun definitions => tokenize_constantOf hquote s _, parse_constantOf hquote s, fun σ setting scope w => ?_⟩
    rw [Expr.invoke, Expr.eval, value_constantOf hquote s]
    rfl

/-- A token behind which the source breaks off, and a string with everything in it that has to be escaped. -/
theorem string_constants_escaped :
    (∃ t ∈ (tokenize "'a\\\n\\'' 'b" .builtIn).1, t.kind = .string ∧ ∃ quote body, Agreed quote body t.text) ∧
      Text.isQuote '"' = true ∧ constantOf '"' "é\"\\\n'" = "\"é\\\"\\\\\\n'\"" ∧
        Expr.parse (constantOf '"' "é\"\\\n'") .builtIn = .ok (.constant .string (constantOf '"' "é\"\\\n'")) := by
  have htoken : (tokenize "'a\\\n\\'' 'b" .builtIn).1 = [⟨.string, "'a\\\n\\''", ⟨0, 7⟩, none⟩] := by decide +kernel
  refine ⟨⟨_, htoken ▸ List.mem_singleton_self _, rfl, ?_⟩, rfl, by decide, (string_constants.2 _ _ rfl).2.1⟩
  exact string_constants.1 _ _ _ (htoken ▸ List.mem_singleton_self _) rfl

end LatentExpr
