import LatentExpr.Proofs.Expr.Forms
import LatentExpr.Proofs.Grammar.WellFormed
import LatentExpr.Proofs.Print.Pieces
import LatentExpr.Proofs.Print.Written

/-!
The printed form of a well-formed expression reads as its pieces. The text is taken from left to right,
token by token, with whatever text behind it: every token is followed by a delimiter, by a space, or
by a token that cannot continue it, a whole number before a point apart.
-/
namespace LatentExpr

open Lexeme SymbolTable

attribute [local simp] Expr.print printItems printRest Property.print printProperties
attribute [local simp] Expr.pieces itemsPieces restPieces Property.pieces propertiesPieces

variable {after : List Char} {ps : List Piece}

/-! ### Names -/

/-- Letters, digits and such behind a letter are a name. -/
theorem Lexeme.Reads.name {c : Char} {more : List Char} (hc : Text.isIdentStart c = true)
    (hmore : ∀ c ∈ more, Text.isIdentContinue c = true) (hafter : Delimited after)
    (h : Reads builtIn.all after ps) :
    Reads builtIn.all (c :: more ++ after) (.identifier (String.ofList (c :: more)) :: ps) := by
  have hrun := run_again hmore (hafter.ended.continues)
  have hlexeme : lexeme? builtIn.all (c :: (more ++ after)) = _ := lexeme?_identifier hc
  rw [identifier, hrun] at hlexeme
  exact .next (skipText_of_isIdentStart hc _) hlexeme h

namespace Piece

variable {name : String}

/-- The characters of a name. -/
theorem Lexed.spelled (h : (identifier name).Lexed) :
    ∃ c more, name.toList = c :: more ∧ Text.isIdentStart c = true ∧
      ∀ c ∈ more, Text.isIdentContinue c = true := by
  obtain ⟨_, _, hlexeme⟩ := h
  obtain ⟨c, text, rfl, hc, hname⟩ := identifier_of_lexeme? hlexeme
  have hlist : c :: (run Text.isIdentContinue text).1 = name.toList := congrArg Prod.fst hname
  exact ⟨c, _, hlist.symm, hc, fun _ hc => of_mem_run hc⟩

theorem lexed_keyword (value : Literal) : (identifier value.keyword).Lexed := by
  refine ⟨value.keyword.toList, [], ?_⟩
  cases value <;> decide

theorem lexed_this : (identifier "this").Lexed := ⟨"this".toList, [], by decide⟩

/-- No token but a symbol begins with an equals sign. -/
theorem Lexed.head {p : Piece} (hp : p.Lexed) (hkind : p.kind ≠ .symbol) :
    p.text.toList.head? ≠ some '=' := by
  obtain ⟨text, rest, hlexeme⟩ := hp
  obtain ⟨happend, hne⟩ := lexeme?_append hlexeme
  intro hhead
  obtain ⟨more, hmore⟩ := List.head?_eq_some_iff.1 hhead
  rw [hmore, List.cons_append] at happend
  subst happend
  rw [lexeme?, if_neg (by decide), if_neg (by simp), if_neg (by decide), if_neg (by decide)] at hlexeme
  obtain ⟨symbol, -, heq⟩ := Option.map_eq_some_iff.1 hlexeme
  exact hkind (congrArg Piece.kind (Prod.mk.inj heq).1).symm

/-- A token of a source is read where it is printed before a delimiter. -/
theorem Lexed.reads {p : Piece} (hp : p.Lexed) (hkind : p.kind ≠ .symbol) (hafter : Delimited after)
    (hpoint : after.head? = some '.' → p.kind = .number → isWhole p.text.toList = false)
    (h : Reads builtIn.all after ps) : Reads builtIn.all (p.text.toList ++ after) (p :: ps) := by
  obtain ⟨_, _, hlexeme⟩ := hp
  exact .again hlexeme hkind hafter.ended hpoint h

theorem Lexed.reads_name (hp : (identifier name).Lexed) (hafter : Delimited after)
    (h : Reads builtIn.all after ps) :
    Reads builtIn.all (name.toList ++ after) (identifier name :: ps) :=
  hp.reads nofun hafter nofun h

end Piece

/-! ### Parentheses -/

/-- What comes behind an expression does not continue its last token. -/
def Expr.EndsAt (e : Expr) (after : List Char) : Prop :=
  Delimited after ∧ (after.head? = some '.' → e.precedence = 10 ∧ e.isWhole = false)

/-- The printed form reads as the pieces of the expression. -/
def Expr.Prints (e : Expr) : Prop :=
  e.WellFormed → ∀ after ps, e.EndsAt after → Reads builtIn.all after ps →
    Reads builtIn.all (e.print.toList ++ after) (e.pieces ++ ps)

/-- A delimiter that is no point. -/
theorem delimited {c : Char} (hc : c ∈ delimiters) : Delimited (c :: after) := by
  intro d hd
  obtain rfl := Option.some.inj hd
  exact hc

namespace Expr

variable {e left right : Expr} {least : Nat} {c : Char}

theorem endsAt (e : Expr) (hc : c ∈ delimiters) (hpoint : c ≠ '.') : e.EndsAt (c :: after) :=
  ⟨delimited hc, fun h => absurd (Option.some.inj h) hpoint⟩

/-- Behind an operation no point comes. -/
theorem EndsAt.loose (h : e.EndsAt after) (hp : e.precedence ≠ 10) (right : Expr) :
    right.EndsAt after :=
  ⟨h.1, fun hhead => absurd (h.2 hhead).1 hp⟩

theorem Prints.enclose (h : e.Prints) (least : Nat) (hw : e.WellFormed)
    (hafter : e.precedence < least ∨ e.EndsAt after)
    (hreads : Reads builtIn.all after ps) :
    Reads builtIn.all ((Expr.enclose least e e.print).toList ++ after)
      (e.enclosePieces least e.pieces ++ ps) := by
  unfold Expr.enclose enclosePieces
  by_cases hlt : e.precedence < least
  · rw [if_pos hlt, if_pos hlt]
    simp only [String.toList_append, List.append_assoc, List.cons_append]
    refine .punct (by decide) (by decide) ?_
    exact h hw _ _ (e.endsAt (by decide) (by decide)) (.punct (by decide) (by decide) hreads)
  · rw [if_neg hlt, if_neg hlt]
    exact h hw _ _ (hafter.resolve_left hlt) hreads

theorem Prints.before (h : e.Prints) (least : Nat) (hw : e.WellFormed) (hc : c ∈ delimiters)
    (hpoint : c ≠ '.') (hreads : Reads builtIn.all (c :: after) ps) :
    Reads builtIn.all ((Expr.enclose least e e.print).toList ++ c :: after)
      (e.enclosePieces least e.pieces ++ ps) :=
  h.enclose least hw (.inr (e.endsAt hc hpoint)) hreads

/-- Two operands with an operator between spaces. -/
theorem Prints.operation {symbol : String} {least₁ least₂ : Nat} (hl : left.Prints) (hr : right.Prints)
    (hs : symbol ∈ builtIn.all.symbols) (hdot : symbol ≠ ".") (hwl : left.WellFormed)
    (hwr : right.WellFormed) (hafter : right.EndsAt after) (hreads : Reads builtIn.all after ps) :
    Reads builtIn.all
      ((Expr.enclose least₁ left left.print ++ " " ++ symbol ++ " " ++
        Expr.enclose least₂ right right.print).toList ++ after)
      ((left.enclosePieces least₁ left.pieces ++
        .symbol symbol :: right.enclosePieces least₂ right.pieces) ++ ps) := by
  simp only [String.toList_append, List.append_assoc, List.cons_append]
  refine hl.before _ hwl (by decide) (by decide) (.space (.symbol hs hdot (fun _ => rfl) nofun ?_))
  exact .space (hr.enclose _ hwr (.inr hafter) hreads)

theorem Prints.assign {target value : Expr} (ht : target.Prints) (hv : value.Prints) :
    (Expr.assign target value).Prints := by
  rintro ⟨-, hwt, hwv⟩ after ps hafter hreads
  have hs : "=" ∈ builtIn.all.symbols := builtIn_subset .assignment (by decide)
  have hvalue := hv.enclose 1 hwv (.inr (hafter.loose nofun value)) hreads
  have hequals := Reads.symbol hs (by decide) (by nofun) (by nofun) hvalue.space
  have htarget := ht.before 2 hwt (by decide) (by decide) hequals.space
  simpa using htarget

theorem Prints.logical {op : LogicalOp} (hl : left.Prints) (hr : right.Prints) :
    (Expr.logical op left right).Prints := by
  rintro ⟨hwl, hwr⟩ after ps hafter hreads
  have hs : op.symbol ∈ builtIn.all.symbols := builtIn_subset .logical (by cases op <;> decide)
  have hp : (Expr.logical op left right).precedence ≠ 10 := by cases op <;> nofun
  rw [Expr.print, Expr.pieces]
  exact hl.operation hr hs (by cases op <;> decide) hwl hwr (hafter.loose hp right) hreads

theorem Prints.binary {level : BinaryLevel} {op : BinaryOp} (hl : left.Prints) (hr : right.Prints) :
    (Expr.binary level op left right).Prints := by
  rintro ⟨⟨symbol, hmem, rfl⟩, hwl, hwr⟩ after ps hafter hreads
  have hs := builtIn_subset level.group hmem
  have hdot : symbol ≠ "." := by
    rintro rfl
    cases level <;> exact absurd hmem (by decide)
  have hp : (Expr.binary level (.ofSymbol level symbol) left right).precedence ≠ 10 := by
    cases level <;> nofun
  rw [Expr.print, Expr.pieces, BinaryOp.symbol_ofSymbol]
  exact hl.operation hr hs hdot hwl hwr (hafter.loose hp right) hreads

theorem Prints.ternary {test consequent alternate : Expr} (ht : test.Prints) (hc : consequent.Prints)
    (ha : alternate.Prints) : (Expr.ternary test consequent alternate).Prints := by
  rintro ⟨hwt, hwc, hwa⟩ after ps hafter hreads
  have halternate := ha.enclose 1 hwa (.inr (hafter.loose nofun alternate)) hreads
  have hconsequent := hc hwc _ _ (consequent.endsAt (by decide) (by decide))
    (.space (.punct (c := ':') (by decide) (by decide) (.space halternate)))
  have htest := ht.before 3 hwt (by decide) (by decide)
    (.space (.punct (c := '?') (by decide) (by decide) (.space hconsequent)))
  simpa using htest

/-! ### Signs -/

theorem tight_of_not_unary (e : Expr) (hunary : ¬e.isUnary = true) (h : 9 ≤ e.precedence) :
    10 ≤ e.precedence := by
  cases e with
  | unary => exact absurd rfl hunary
  | logical op => cases op <;> simp [precedence] at h
  | binary level => cases level <;> simp [precedence] at h
  | assign | comma | ternary => simp [precedence] at h
  | _ => exact Nat.le_refl 10

theorem head_enclose (least : Nat) (h : least ≤ e.precedence → e.print.toList.head? ≠ some '=') :
    (Expr.enclose least e e.print).toList.head? ≠ some '=' := by
  unfold Expr.enclose
  by_cases hlt : e.precedence < least
  · rw [if_pos hlt]
    simp
  · rw [if_neg hlt]
    exact h (Nat.not_lt.1 hlt)

theorem head_append {text more : List Char} (h : text.head? ≠ some '=')
    (hmore : more.head? ≠ some '=') : (text ++ more).head? ≠ some '=' := by
  cases text with
  | nil => exact hmore
  | cons => exact h

/-- No primary begins with an equals sign, so none makes a symbol in front longer. -/
theorem head_print : ∀ e : Expr, e.WellFormed → 10 ≤ e.precedence → e.print.toList.head? ≠ some '='
  | .identifier name, ⟨_, hname⟩, _ => hname.head nofun
  | .constant kind text, hw, _ => Piece.Lexed.head hw (by cases kind <;> nofun)
  | .literal value, _, _ => (Piece.lexed_keyword value).head nofun
  | .receiver, _, _ => Piece.lexed_this.head nofun
  | .call callee args, ⟨hw, _⟩, _ => by
    simp only [Expr.print, String.toList_append, List.append_assoc]
    exact head_append (head_enclose 10 (head_print callee hw)) nofun
  | .member target name, ⟨_, _, hw⟩, _ => by
    simp only [Expr.print, String.toList_append, List.append_assoc]
    exact head_append (head_enclose 10 (head_print target hw)) nofun
  | .index target key, ⟨hw, _⟩, _ => by
    simp only [Expr.print, String.toList_append, List.append_assoc]
    exact head_append (head_enclose 10 (head_print target hw)) nofun
  | .array elements, _, _ => by
    simp
  | .object [], _, _ | .object (_ :: _), _, _ => by
    simp
  | .assign .., _, h | .comma _, _, h | .ternary .., _, h | .unary .., _, h => by
    simp [precedence] at h
  | .logical op _ _, _, h => by
    cases op <;> simp [precedence] at h
  | .binary level _ _ _, _, h => by
    cases level <;> simp [precedence] at h

/-- A sign keeps apart from its operand. -/
theorem Prints.unary {op : UnaryOp} {operand : Expr} (hu : operand.Prints) :
    (Expr.unary op operand).Prints := by
  rintro ⟨⟨symbol, hmem, rfl⟩, hw⟩ after ps hafter hreads
  have hs := builtIn_subset .unary hmem
  have hdot : symbol ≠ "." ∧ symbol ≠ "/" := by
    constructor <;> (rintro rfl; exact absurd hmem (by decide))
  have hoperand := hu.enclose 9 hw (.inr (hafter.loose nofun operand)) hreads
  rw [Expr.print, Expr.pieces, UnaryOp.symbol_ofSymbol]
  simp only [String.toList_append, List.append_assoc, List.cons_append]
  by_cases hunary : operand.isUnary = true
  · rw [if_pos hunary]
    exact .symbol hs hdot.1 (fun h => absurd h hdot.2) (by simp) hoperand.space
  · rw [if_neg hunary]
    refine .symbol hs hdot.1 (fun h => absurd h hdot.2) ?_ hoperand
    show ((Expr.enclose 9 operand operand.print).toList ++ after).head? ≠ some '='
    have htight (h : 9 ≤ operand.precedence) : 10 ≤ operand.precedence :=
      operand.tight_of_not_unary hunary h
    have hequals : after.head? ≠ some '=' := fun h => absurd (hafter.1 _ h) (by decide)
    exact head_append (head_enclose 9 fun h => operand.head_print hw (htight h)) hequals

/-! ### Primaries and what follows them -/

/-- An expression of one token. -/
theorem Prints.token {p : Piece} (htext : e.print = p.text) (hpieces : e.pieces = [p])
    (hkind : p.kind ≠ .symbol) (hp : e.WellFormed → p.Lexed)
    (hwhole : p.kind = .number → e.isWhole = Lexeme.isWhole p.text.toList) : e.Prints := by
  intro hw after ps hafter hreads
  rw [htext, hpieces]
  exact (hp hw).reads hkind hafter.1 (fun hhead hnumber => hwhole hnumber ▸ (hafter.2 hhead).2) hreads

theorem Prints.index {target key : Expr} (ht : target.Prints) (hk : key.Prints) :
    (Expr.index target key).Prints := by
  rintro ⟨hwt, hwk⟩ after ps hafter hreads
  have hkey := hk hwk _ _ (key.endsAt (by decide) (by decide))
    (.punct (c := ']') (by decide) (by decide) hreads)
  have htarget := ht.before 10 hwt (by decide) (by decide)
    (.punct (c := '[') (by decide) (by decide) hkey)
  simpa using htarget

end Expr

/-! ### Members -/

/-- A whole number takes the point behind it. -/
theorem Lexeme.Reads.glued {text name : String} (htext : (Piece.number text).Lexed)
    (hname : (Piece.identifier name).Lexed) (hwhole : isWhole text.toList = true)
    (hafter : Delimited after) (hreads : Reads builtIn.all after ps) :
    Reads builtIn.all (text.toList ++ '.' :: (name.toList ++ after)) (glued text name ++ ps) := by
  obtain ⟨_, _, hnumber⟩ := htext
  obtain ⟨c, more, hlist, hc, hmore⟩ := hname.spelled
  have hcontinue (d : Char) (hd : d ∈ name.toList) : Text.isIdentContinue d = true := by
    rw [hlist] at hd
    rcases List.mem_cons.1 hd with rfl | hd
    · rw [Text.isIdentContinue, hc, Bool.true_or]
    · exact hmore d hd
  have hdigit : Halts Char.isDigit name.toList := by
    rw [hlist]
    rintro _ ⟨⟩
    exact isDigit_of_isIdentStart hc
  have hlexeme : lexeme? builtIn.all (text.toList ++ '.' :: (name.toList ++ after)) = _ :=
    lexeme?_whole hwhole (lexeme?_append hnumber).2 (hdigit.append hafter.ended.digit)
  rw [exponent_before hafter.ended] at hlexeme
  obtain ⟨d, digits, hstart, hskip⟩ := skipText_of_lexeme? hlexeme (by rintro ⟨⟩)
  have hrest : Reads builtIn.all ((exponent name.toList).2 ++ after)
      ((if (exponent name.toList).2 = [] then []
        else [.identifier (String.ofList (exponent name.toList).2)]) ++ ps) := by
    have hrun := halts_exponent hdigit
    have happend := exponent_append name.toList
    cases hlist : (exponent name.toList).2 with
    | nil => exact hreads
    | cons c more =>
      -- What is left of the name starts with no digit, so it is a name of its own.
      rw [hlist] at hrun happend
      have hleft (d : Char) (hd : d ∈ c :: more) : Text.isIdentContinue d = true :=
        hcontinue d (by rw [← happend]; exact List.mem_append_right _ hd)
      have hc := hleft c List.mem_cons_self
      rw [Text.isIdentContinue, hrun c rfl, Bool.or_false] at hc
      exact .name hc (fun d hd => hleft d (List.mem_cons_of_mem _ hd)) hafter hreads
  have hnumber : String.ofList (text.toList ++ '.' :: (exponent name.toList).1) =
      text ++ "." ++ String.ofList (exponent name.toList).1 := by
    rw [← String.toList_inj]
    simp
  rw [hnumber] at hlexeme
  exact .next (by rw [hstart]; exact hskip digits) hlexeme hrest

theorem Expr.Prints.member {target : Expr} {name : String} (ht : target.Prints) :
    (Expr.member target name).Prints := by
  rintro ⟨-, hname, hw⟩ after ps hafter hreads
  by_cases hwhole : target.isWhole = true
  · obtain ⟨text, rfl, htext⟩ := isWhole_iff.1 hwhole
    have hglued := Reads.glued hw hname htext hafter.1 hreads
    rw [Expr.pieces, memberPieces, if_pos htext]
    simpa [Expr.enclose, precedence] using hglued
  · obtain ⟨c, more, hlist, hc, -⟩ := hname.spelled
    have hmember := hname.reads_name hafter.1 hreads
    have hpoint : Reads builtIn.all ('.' :: (name.toList ++ after))
        (.punct '.' :: .identifier name :: ps) := by
      rw [hlist] at hmember ⊢
      exact .point hc hmember
    have hends : target.precedence < 10 ∨ target.EndsAt ('.' :: (name.toList ++ after)) := by
      rcases Nat.lt_or_ge target.precedence 10 with hlt | hge
      · exact .inl hlt
      · have hp := Nat.le_antisymm target.precedence_le hge
        exact .inr ⟨delimited (by decide), fun _ => ⟨hp, Bool.eq_false_iff.2 hwhole⟩⟩
    have htarget := ht.enclose 10 hw hends hpoint
    rw [Expr.pieces, memberPieces_of_not_isWhole hwhole]
    simpa using htarget

/-! ### Lists -/

variable {es : List Expr}

theorem endsAt_rest {least : Nat} (hafter : ∀ e : Expr, e.EndsAt after) (e : Expr) :
    e.EndsAt ((printRest least es).toList ++ after) := by
  cases es with
  | nil => exact hafter e
  | cons =>
    simp only [printRest, String.toList_append, List.append_assoc]
    exact e.endsAt (c := ',') (by decide) (by decide)

theorem prints_rest (least : Nat) (hes : ∀ e ∈ es, e.Prints) (hw : WellFormedItems es)
    (hafter : ∀ e : Expr, e.EndsAt after) (hreads : Reads builtIn.all after ps) :
    Reads builtIn.all ((printRest least es).toList ++ after) (restPieces least es ++ ps) := by
  induction es with
  | nil => exact hreads
  | cons e es ih =>
    have hrest := ih (fun e he => hes e (List.mem_cons_of_mem _ he)) hw.2
    have hitem := (hes e List.mem_cons_self).enclose least hw.1 (.inr (endsAt_rest hafter e)) hrest
    have hcomma := Reads.punct (c := ',') (by decide) (by decide) hitem.space
    simpa using hcomma

theorem prints_items (hes : ∀ e ∈ es, e.Prints) (hw : WellFormedItems es)
    (hafter : ∀ e : Expr, e.EndsAt after) (hreads : Reads builtIn.all after ps) :
    Reads builtIn.all ((printItems es).toList ++ after) (itemsPieces es ++ ps) := by
  cases es with
  | nil => exact hreads
  | cons e es =>
    have hrest := prints_rest 1 (fun e he => hes e (List.mem_cons_of_mem _ he)) hw.2 hafter hreads
    have hitem := (hes e List.mem_cons_self).enclose 1 hw.1 (.inr (endsAt_rest hafter e)) hrest
    simpa using hitem

namespace Expr

theorem Prints.comma {items : List Expr} (hitems : ∀ e ∈ items, e.Prints) :
    (Expr.comma items).Prints := by
  intro hw after ps hafter hreads
  cases items with
  | nil => exact nomatch hw.1
  | cons first rest =>
    obtain ⟨-, hwf, hwr⟩ := hw
    have hends (e : Expr) : e.EndsAt after := hafter.loose nofun e
    have hrest := prints_rest 2 (fun e he => hitems e (List.mem_cons_of_mem _ he)) hwr hends hreads
    have hfirst := (hitems first List.mem_cons_self).enclose 1 hwf (.inr (endsAt_rest hends first)) hrest
    simpa using hfirst

theorem Prints.call {callee : Expr} {args : List Expr} (hc : callee.Prints)
    (ha : ∀ e ∈ args, e.Prints) : (Expr.call callee args).Prints := by
  rintro ⟨hwc, hwa⟩ after ps hafter hreads
  have hargs := prints_items ha hwa (fun e => e.endsAt (by decide) (by decide))
    (.punct (c := ')') (by decide) (by decide) hreads)
  have hcallee := hc.before 10 hwc (by decide) (by decide)
    (.punct (c := '(') (by decide) (by decide) hargs)
  simpa using hcallee

theorem Prints.array {elements : List Expr} (he : ∀ e ∈ elements, e.Prints) :
    (Expr.array elements).Prints := by
  intro hw after ps _ hreads
  have helements := prints_items he hw (fun e => e.endsAt (by decide) (by decide))
    (.punct (c := ']') (by decide) (by decide) hreads)
  have harray := Reads.punct (c := '[') (by decide) (by decide) helements
  simpa using harray

end Expr

/-! ### Properties -/

/-- The printed form of the property reads as its pieces. -/
def Property.Prints (p : Property) : Prop :=
  p.WellFormed → ∀ after ps, (∀ e : Expr, e.EndsAt after) → Reads builtIn.all after ps →
    Reads builtIn.all (p.print.toList ++ after) (p.pieces ++ ps)

namespace Property

variable {key value : Expr}

/-- A key before the colon and the value. -/
theorem prints_value (hv : value.Prints) (hw : value.WellFormed) (hafter : ∀ e : Expr, e.EndsAt after)
    (hreads : Reads builtIn.all after ps) :
    Reads builtIn.all (':' :: ' ' :: ((Expr.enclose 1 value value.print).toList ++ after))
      (.punct ':' :: (value.enclosePieces 1 value.pieces ++ ps)) :=
  .punct (by decide) (by decide) (.space (hv.enclose 1 hw (.inr (hafter value)) hreads))

theorem Prints.named {name : String} (hv : value.Prints) : (Property.named name value).Prints := by
  rintro ⟨hname, hw⟩ after ps hafter hreads
  rw [Property.print, Property.pieces]
  by_cases hnamed : value.isNamed name = true
  · rw [if_pos hnamed, if_pos hnamed]
    exact hname.reads_name (hafter value).1 hreads
  · rw [if_neg hnamed, if_neg hnamed]
    have hvalue := prints_value hv hw hafter hreads
    simpa using hname.reads_name (delimited (by decide)) hvalue

theorem Prints.constant {kind : ConstantKind} {text : String} (hv : value.Prints) :
    (Property.constant kind text value).Prints := by
  rintro ⟨hkey, hw⟩ after ps hafter hreads
  have hvalue := prints_value hv hw hafter hreads
  have hkind : (⟨kind.token, text⟩ : Piece).kind ≠ .symbol := by cases kind <;> nofun
  simpa using
    hkey.reads hkind (delimited (by decide)) (by simp) hvalue

theorem Prints.computed (hk : key.Prints) (hv : value.Prints) : (Property.computed key value).Prints := by
  rintro ⟨hwk, hwv⟩ after ps hafter hreads
  have hclose := Reads.punct (c := ']') (by decide) (by decide) (prints_value hv hwv hafter hreads)
  have hkey := hk hwk _ _ (key.endsAt (by decide) (by decide)) hclose
  have hopen := Reads.punct (c := '[') (by decide) (by decide) hkey
  simpa using hopen

end Property

/-- Properties behind another one, up to the closing brace. -/
theorem prints_properties {p : Property} {rest : List Property} (hps : ∀ q ∈ p :: rest, q.Prints)
    (hw : WellFormedProperties (p :: rest)) (hreads : Reads builtIn.all after ps) :
    Reads builtIn.all ((p.print ++ printProperties rest).toList ++ ' ' :: '\x7d' :: after)
      (propertiesPieces (p :: rest) ++ .punct '\x7d' :: ps) := by
  induction rest generalizing p with
  | nil =>
    have hbrace := Reads.punct (c := '\x7d') (by decide) (by decide) hreads
    have hp := hps p List.mem_cons_self hw.1 _ _ (fun e => e.endsAt (by decide) (by decide)) hbrace.space
    simpa using hp
  | cons q rest ih =>
    have hrest := ih (fun q hq => hps q (List.mem_cons_of_mem _ hq)) hw.2
    have hcomma := Reads.punct (c := ',') (by decide) (by decide) hrest.space
    have hp := hps p List.mem_cons_self hw.1 _ _ (fun e => e.endsAt (by decide) (by decide)) hcomma
    simpa using hp

theorem Expr.Prints.object {ps : List Property} (hps : ∀ p ∈ ps, p.Prints) :
    (Expr.object ps).Prints := by
  intro hw after qs _ hreads
  cases ps with
  | nil =>
    have hbrace := Reads.punct (c := '\x7d') (by decide) (by decide) hreads
    have hobject := Reads.punct (c := '\x7b') (by decide) (by decide) hbrace
    simpa using hobject
  | cons p rest =>
    have hproperties := prints_properties hps hw hreads
    have hobject := Reads.punct (c := '\x7b') (by decide) (by decide) hproperties.space
    simpa using hobject

/-! ### Every expression -/

theorem prints_forms : Forms Expr.Prints Property.Prints where
  assign := .assign
  comma := .comma
  ternary := .ternary
  logical := .logical
  binary := .binary
  unary := .unary
  identifier := .token rfl rfl nofun (fun hw => hw.2) nofun
  constant {kind _} := .token rfl rfl (by cases kind <;> nofun) id fun h => by
    cases kind with
    | number => rfl
    | string => cases h
  literal {value} := .token rfl rfl nofun (fun _ => Piece.lexed_keyword value) nofun
  receiver := .token rfl rfl nofun (fun _ => Piece.lexed_this) nofun
  call := .call
  member := .member
  index := .index
  array := .array
  object := .object
  named := .named
  constantKey := .constant
  computed := .computed

theorem Expr.prints (e : Expr) : e.Prints := prints_forms.expr e

/-- The printed form of a well-formed expression reads as its pieces. -/
theorem Expr.reads_print {e : Expr} (hw : e.WellFormed) :
    Reads builtIn.all e.print.toList e.pieces := by
  have hend : e.EndsAt [] := ⟨nofun, nofun⟩
  have hdone : Reads builtIn.all [] [] := .done (by rw [skipText])
  simpa using e.prints hw [] [] hend hdone

end LatentExpr
