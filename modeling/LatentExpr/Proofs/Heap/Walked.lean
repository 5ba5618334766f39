import LatentExpr.Proofs.Heap.Joined
import LatentExpr.Value.Debug

/-!
Walks that keep a track. The programs here convert an array to a text, show a value and compare two values as they go:
they push what they go into onto a track, pop it when they come out, and fail where something would be on the track
twice or where they are deeper than they may be. `Leaves` says of such a program what it does inside of a track, and
that it leaves the track as it was. No depth beyond the number of containers, or of pairs of them, is ever needed, so
no walk fails, and each gives the result that is known of it (`walks_leave_track`).
-/
namespace LatentExpr

namespace Walk

/-! ### Programs with a track -/

section
variable {τ α β : Type} {m : Type → Type} [Monad m]

/-- Put something onto the track, where it must not be yet. -/
def push [DecidableEq τ] [MonadExceptOf Unit m] (x : τ) : StateT (List τ) m Unit := do
  let track ← get
  if (x :: track).Nodup then set (x :: track) else throw ()

/-- Take off the track what was put onto it last. -/
def pop : StateT (List τ) m Unit := modify List.tail

/-- Go into something, unless it is on the track already. -/
def enter [DecidableEq τ] [MonadExceptOf Unit m] (x : τ) (met inside : StateT (List τ) m α) : StateT (List τ) m α := do
  if x ∈ (← get) then met
  else
    push x
    let result ← inside
    pop
    return result

/-- The second program, if the first one goes through. -/
def followed (first second : m Bool) : m Bool := do if ← first then second else pure false

/-- Inside of a track a program does what another one does, and it leaves the track as it was. -/
def Leaves (program : StateT (List τ) m α) (track : List τ) (done : m α) : Prop :=
  program.run track = (fun result => (result, track)) <$> done

namespace Leaves
variable [LawfulMonad m] {track : List τ} {program : StateT (List τ) m α} {done : m α}

theorem pure (a : α) : Leaves (Pure.pure a : StateT (List τ) m α) track (Pure.pure a) := by
  rw [Leaves, StateT.run_pure, map_pure]

theorem lift (done : m α) : Leaves (StateT.lift done : StateT (List τ) m α) track done := by
  rw [Leaves, StateT.run_lift, map_eq_pure_bind]

theorem bind {next : α → StateT (List τ) m β} {nextDone : α → m β} (hp : Leaves program track done)
    (hn : ∀ a, Leaves (next a) track (nextDone a)) : Leaves (program >>= next) track (done >>= nextDone) := by
  rw [Leaves, StateT.run_bind, hp, bind_map_left, map_bind]
  exact congrArg _ (funext hn)

theorem mapM {xs : List α} {program : α → StateT (List τ) m β} {done : α → m β}
    (hp : ∀ x ∈ xs, Leaves (program x) track (done x)) : Leaves (xs.mapM program) track (xs.mapM done) := by
  induction xs with
  | nil => exact pure []
  | cons x xs ih =>
    rw [List.mapM_cons, List.mapM_cons]
    refine bind (hp x List.mem_cons_self) fun _ => bind (ih fun y hy => hp y (List.mem_cons_of_mem _ hy)) fun _ => ?_
    exact pure _

theorem followed {first second : StateT (List τ) m Bool} {done done' : m Bool} (hp : Leaves first track done)
    (hq : Leaves second track done') : Leaves (Walk.followed first second) track (Walk.followed done done') := by
  refine bind hp fun ok => ?_
  cases ok with
  | true => exact hq
  | false => exact pure false

theorem allM {xs : List α} {program : α → StateT (List τ) m Bool} {done : α → m Bool}
    (hp : ∀ x ∈ xs, Leaves (program x) track (done x)) : Leaves (xs.allM program) track (xs.allM done) := by
  induction xs with
  | nil => exact pure true
  | cons x xs ih =>
    rw [List.allM_cons, List.allM_cons]
    exact followed (hp x List.mem_cons_self) (ih fun y hy => hp y (List.mem_cons_of_mem _ hy))

theorem all {xs : List α} {program : α → StateT (List τ) m Bool} {ok : α → Bool}
    (hp : ∀ x ∈ xs, Leaves (program x) track (Pure.pure (ok x))) :
    Leaves (xs.allM program) track (Pure.pure (xs.all ok)) := by
  rw [← List.allM_pure]
  exact allM hp

theorem guarded {p : Prop} [Decidable p] {program : StateT (List τ) m Bool} {ok : Bool}
    (hp : Leaves program track (Pure.pure ok)) :
    Leaves (if p then program else Pure.pure false) track (Pure.pure (decide p && ok)) := by
  by_cases h : p
  · rw [if_pos h, decide_eq_true h]
    exact hp
  · rw [if_neg h, decide_eq_false h]
    exact pure false

variable [DecidableEq τ] [MonadExceptOf Unit m] {x : τ} {met inside : StateT (List τ) m α}

theorem enter_of_mem (hmet : x ∈ track) (hp : Leaves met track done) : Leaves (enter x met inside) track done := by
  rw [Leaves, enter, StateT.run_bind, StateT.run_get, pure_bind]
  dsimp only
  rw [if_pos hmet]
  exact hp

/-- What is pushed is popped again, whatever is done in between. -/
theorem enter_of_notMem (hnew : x ∉ track) (hnodup : track.Nodup) (hp : Leaves inside (x :: track) done) :
    Leaves (enter x met inside) track done := by
  have hpush : (push x : StateT (List τ) m Unit).run track = Pure.pure ((), x :: track) := by
    rw [push, StateT.run_bind, StateT.run_get, pure_bind]
    dsimp only
    rw [if_pos (List.nodup_cons.2 ⟨hnew, hnodup⟩), StateT.run_set]
  rw [Leaves, enter, StateT.run_bind, StateT.run_get, pure_bind]
  dsimp only
  rw [if_neg hnew, StateT.run_bind, hpush, pure_bind]
  dsimp only
  rw [StateT.run_bind, hp, bind_map_left, map_eq_pure_bind]
  refine congrArg _ (funext fun result => ?_)
  rw [StateT.run_bind, pop, StateT.run_modify, pure_bind, StateT.run_pure]
  rfl

end Leaves

/-! ### Programs that go through a list -/

section
variable {f : α → m Bool}

theorem allM_cons (x : α) (xs : List α) : (x :: xs).allM f = followed (f x) (xs.allM f) := List.allM_cons

variable [LawfulMonad m]

theorem allM_append (xs ys : List α) : (xs ++ ys).allM f = followed (xs.allM f) (ys.allM f) := by
  induction xs with
  | nil => rw [List.nil_append, List.allM_nil, followed, pure_bind, if_pos rfl]
  | cons x xs ih =>
    rw [List.cons_append, List.allM_cons, List.allM_cons, ih, followed, followed, bind_assoc]
    refine congrArg _ (funext fun ok => ?_)
    cases ok with
    | true => rfl
    | false => simp

theorem allM_singleton (x : α) : [x].allM f = f x := by
  rw [List.allM_cons]
  have hok : (fun ok : Bool => if ok = true then List.allM f [] else pure false) = pure := by
    funext ok
    cases ok <;> rfl
  rw [hok, bind_pure]

theorem allM_flatMap {xs : List β} {g : β → List α} :
    (xs.flatMap g).allM f = xs.allM fun x => (g x).allM f := by
  induction xs with
  | nil => rfl
  | cons x xs ih => rw [List.flatMap_cons, allM_append, ih, List.allM_cons, followed]

end
end

/-! ### Lists with separators -/

section
variable {α : Type} {g : α → List String} {separator : String}

theorem flatMap_zipIdx_succ (xs : List α) (k : Nat) :
    (xs.zipIdx (k + 1)).flatMap (fun p => (if 0 < p.2 then [separator] else []) ++ g p.1) =
      xs.flatMap fun x => separator :: g x := by
  induction xs generalizing k with
  | nil => rfl
  | cons x xs ih =>
    rw [List.zipIdx_cons, List.flatMap_cons, List.flatMap_cons, ih, if_pos (Nat.succ_pos k)]
    rfl

theorem intercalate_map_cons (x : α) (xs : List α) :
    [separator].intercalate ((x :: xs).map g) = g x ++ xs.flatMap fun x => separator :: g x := by
  induction xs generalizing x with
  | nil => simp
  | cons y ys ih =>
    rw [List.map_cons, List.map_cons, List.intercalate_cons_cons, ← List.map_cons, ih, List.flatMap_cons,
      List.append_assoc]
    rfl

/-- A separator before each part but the first. -/
theorem flatMap_zipIdx (xs : List α) :
    xs.zipIdx.flatMap (fun p => (if 0 < p.2 then [separator] else []) ++ g p.1) =
      [separator].intercalate (xs.map g) := by
  cases xs with
  | nil => rfl
  | cons x xs =>
    rw [List.zipIdx_cons, List.flatMap_cons, flatMap_zipIdx_succ, intercalate_map_cons]
    rfl

theorem join_singleton (text : String) : String.join [text] = text := by simp

theorem join_intercalate (parts : List (List String)) :
    String.join ([separator].intercalate parts) = separator.intercalate (parts.map String.join) := by
  induction parts with
  | nil => rfl
  | cons part rest ih =>
    cases rest with
    | nil => simp
    | cons next rest =>
      rw [List.intercalate_cons_cons, String.join_append, String.join_append, ih]
      simp

end

/-- What writing a text does to a sink, and whether it goes through, in a program that may fail. -/
def sending {σ : Type} (write : String → StateM σ Bool) (text : String) : StateT σ Option Bool :=
  fun sink => some ((write text).run sink)

theorem run_allM_sending {σ : Type} (write : String → StateM σ Bool) (texts : List String) (sink : σ) :
    (texts.allM (sending write)).run sink = some ((texts.allM write).run sink) := by
  induction texts generalizing sink with
  | nil => rfl
  | cons text rest ih =>
    have hfirst : (sending write text).run sink = some ((write text).run sink) := rfl
    rw [allM_cons, allM_cons, followed, followed, StateT.run_bind, StateT.run_bind, hfirst]
    obtain ⟨ok, after⟩ := (write text).run sink
    cases ok with
    | true => exact ih after
    | false => rfl

/-- Write a text. -/
def put {σ : Type} (write : String → StateM σ Bool) (text : String) : StateT (List Value) (StateT σ Option) Bool :=
  StateT.lift (sending write text)

end Walk

namespace Value

/-- What opens and what closes a container. -/
def brackets : Value → String × String
  | array _ => ("[", "]")
  | object _ => ("\x7b", "\x7d")
  | _ => ("", "")

/-- The structure of a value that is no container, as text. -/
def plainDebug : Value → String
  | undefined => "undefined"
  | null => "null"
  | bool b => if b then "true" else "false"
  | number n => n.toText
  | string s => Text.quoted s
  | function _ => "[Function]"
  | pending _ => "[Pending]"
  | array _ | object _ => ""

end Value

namespace Heap
open Walk
variable {h : Heap}

/-! ### Texts -/

/-- The text of an array, with the arrays that the program is inside of on a track. -/
def joinOn (h : Heap) : Nat → Nat → StateT (List Nat) Option String
  | 0, _ => throw ()
  | depth + 1, id => enter id (pure "") do
      let parts ← (h.elements id).toList.mapM fun
        | .undefined | .null => pure ""
        | .array inner => h.joinOn depth inner
        | v => pure v.plainText
      return ",".intercalate parts

/-- The text of a value. -/
def textOn (h : Heap) (depth : Nat) : Value → StateT (List Nat) Option String
  | .array id => h.joinOn depth id
  | v => pure v.plainText

theorem joinOn_leaves {depth : Nat} {track : List Nat} {id : Nat} (hnodup : track.Nodup)
    (hdepth : offTrack h.arrayIds track < depth) :
    Leaves (h.joinOn depth id) track (pure (h.textInside track id)) := by
  induction depth generalizing track id with
  | zero => exact absurd hdepth (Nat.not_lt_zero _)
  | succ depth ih =>
    rw [joinOn]
    by_cases hmet : id ∈ track
    · rw [textInside_of_mem hmet]
      exact .enter_of_mem hmet (.pure "")
    · rw [textInside_of_notMem hmet]
      refine .enter_of_notMem hmet hnodup ?_
      have hjoined (parts : List String) :
          (pure (",".intercalate parts) : Option String) = pure parts >>= fun parts => pure (",".intercalate parts) := rfl
      rw [hjoined, ← List.mapM_pure]
      refine .bind (.mapM fun v hv => ?_) fun _ => .pure _
      cases v with
      | array inner =>
        have := offTrack_cons_lt (mem_arrayIds (Array.mem_toList_iff.1 hv)) hmet
        exact ih (List.nodup_cons.2 ⟨hmet, hnodup⟩) (by omega)
      | _ => exact .pure _

/-! ### Comparisons -/

/-- Whether two values have the same contents, with the pairs that are being compared on a track. -/
def compareOn (h : Heap) : Nat → Value → Value → StateT (List (Value × Value)) Option Bool
  | 0, _, _ => throw ()
  | depth + 1, a, b =>
    match a, b with
    | .array i, .array j =>
      if i = j then pure true
      else enter (a, b) (pure true) do
        let xs := (h.elements i).toList
        let ys := (h.elements j).toList
        if xs.length = ys.length then (xs.zip ys).allM fun (x, y) => h.compareOn depth x y
        else pure false
    | .object i, .object j =>
      if i = j then pure true
      else enter (a, b) (pure true) do
        let xs := h.fields i
        let ys := h.fields j
        if xs.length = ys.length then
          xs.allM fun (key, x) =>
            match ys.get? key with
            | some y => h.compareOn depth x y
            | none => pure false
        else pure false
    | a, b => pure (a.sameValueZero b)

/-- Going into a pair of containers, given what their contents come to. -/
theorem enter_pair_leaves {same : Prop} [Decidable same] {a b : Value} {track : List (Value × Value)} {ok : Bool}
    {inside : StateT (List (Value × Value)) Option Bool} (hnodup : track.Nodup)
    (hinside : (a, b) ∉ track → Leaves inside ((a, b) :: track) (pure ok)) :
    Leaves (if same then pure true else enter (a, b) (pure true) inside) track
      (pure (decide same || track.contains (a, b) || ok)) := by
  by_cases hsame : same
  · rw [if_pos hsame, decide_eq_true hsame]
    exact .pure true
  rw [if_neg hsame, decide_eq_false hsame, Bool.false_or, List.contains_eq_mem]
  by_cases hmet : (a, b) ∈ track
  · rw [decide_eq_true hmet]
    exact .enter_of_mem hmet (.pure true)
  · rw [decide_eq_false hmet, Bool.false_or]
    exact .enter_of_notMem hmet hnodup (hinside hmet)

theorem compareOn_leaves {depth : Nat} {track : List (Value × Value)} {a b : Value} (hnodup : track.Nodup)
    (hdepth : h.unmet track < depth) : Leaves (h.compareOn depth a b) track (pure (h.compareContents track a b)) := by
  induction depth generalizing track a b with
  | zero => exact absurd hdepth (Nat.not_lt_zero _)
  | succ depth ih =>
    unfold compareOn
    split
    · rename_i i j
      rw [compareContents_array, beq_eq_decide]
      refine enter_pair_leaves hnodup fun hnew => .guarded (.all fun (x, y) hxy => ?_)
      obtain ⟨hx, hy⟩ := holds_of_mem_zip hxy
      have := unmet_cons_lt hnew rfl hx hy
      exact ih (List.nodup_cons.2 ⟨hnew, hnodup⟩) (by omega)
    · rename_i i j
      rw [compareContents_object, beq_eq_decide]
      refine enter_pair_leaves hnodup fun hnew => .guarded (.all fun (key, x) hx => ?_)
      dsimp only
      cases hy : (h.fields j).get? key with
      | none => exact .pure false
      | some y =>
        have := unmet_cons_lt hnew rfl (.field hx) (holds_of_get? hy)
        exact ih (List.nodup_cons.2 ⟨hnew, hnodup⟩) (by omega)
    · rename_i harray hobject
      rw [compareContents_plain (fun ⟨i, j, ha, hb⟩ => harray i j ha hb) fun ⟨i, j, ha, hb⟩ => hobject i j ha hb]
      exact .pure _

/-! ### Values that are shown -/

/-- The entries of a container, each with what is written before it. -/
def entries (h : Heap) : Value → List (List String × Value)
  | .array id => (h.elements id).toList.map fun x => ([], x)
  | .object id => (h.fields id).map fun (key, x) => ([key ++ ": "], x)
  | _ => []

/-- The containers of a heap. -/
def containers (h : Heap) : Finset Value :=
  (Finset.range h.arrays.size).image .array ∪ (Finset.range h.objects.size).image .object

theorem card_containers_le (h : Heap) : h.containers.card ≤ h.size := by
  refine (Finset.card_union_le _ _).trans (Nat.add_le_add ?_ ?_) <;>
    exact Finset.card_image_le.trans (by simp)

/-- A container with entries is one of the heap. -/
theorem mem_containers {v : Value} {entry : List String × Value} (hentry : entry ∈ h.entries v) : v ∈ h.containers := by
  cases v with
  | array id =>
    obtain ⟨x, hx, -⟩ := List.mem_map.1 hentry
    simp [containers, lt_of_mem_elements (Array.mem_toList_iff.1 hx)]
  | object id =>
    obtain ⟨field, hfield, -⟩ := List.mem_map.1 hentry
    simp [containers, lt_of_mem_fields hfield]
  | _ => cases hentry

/-- The texts that are written for a value inside the containers of a track, however deep it goes. -/
def piecesInside (h : Heap) (track : List Value) (v : Value) : List String :=
  if v.isContainer then
    if _hmet : v ∈ track then ["[Circular]"]
    else
      v.brackets.1 :: ([", "].intercalate ((h.entries v).attach.map fun ⟨(label, x), _⟩ =>
        label ++ h.piecesInside (v :: track) x) ++ [v.brackets.2])
  else [v.plainDebug]
termination_by offTrack h.containers track
decreasing_by
  rename_i hentry
  exact offTrack_cons_lt (mem_containers hentry) _hmet

theorem piecesInside_plain {track : List Value} {v : Value} (hv : ¬ v.isContainer = true) :
    h.piecesInside track v = [v.plainDebug] := by
  rw [piecesInside, if_neg hv]

theorem piecesInside_of_mem {track : List Value} {v : Value} (hv : v.isContainer = true) (hmet : v ∈ track) :
    h.piecesInside track v = ["[Circular]"] := by
  rw [piecesInside, if_pos hv, dif_pos hmet]

theorem piecesInside_of_notMem {track : List Value} {v : Value} (hv : v.isContainer = true) (hnew : v ∉ track) :
    h.piecesInside track v = v.brackets.1 :: ([", "].intercalate ((h.entries v).map fun entry =>
      entry.1 ++ h.piecesInside (v :: track) entry.2) ++ [v.brackets.2]) := by
  rw [piecesInside, if_pos hv, dif_neg hnew]
  have hparts := List.attach_map_val (l := h.entries v)
    (f := fun entry => entry.1 ++ h.piecesInside (v :: track) entry.2)
  rw [← hparts]

/-- Writing a container, step by step. -/
theorem allM_piecesInside {m : Type → Type} [Monad m] [LawfulMonad m] {f : String → m Bool} {track : List Value}
    {v : Value} (hv : v.isContainer = true) (hnew : v ∉ track) :
    (h.piecesInside track v).allM f = followed (f v.brackets.1) (followed
      ((h.entries v).zipIdx.allM fun ((label, x), i) =>
        followed (((if 0 < i then [", "] else []) ++ label).allM f) ((h.piecesInside (v :: track) x).allM f))
      (f v.brackets.2)) := by
  rw [piecesInside_of_notMem hv hnew, allM_cons, allM_append, allM_singleton, ← flatMap_zipIdx, allM_flatMap]
  have hentry (p : (List String × Value) × Nat) :
      ((if 0 < p.2 then [", "] else []) ++ (p.1.1 ++ h.piecesInside (v :: track) p.1.2)).allM f =
        followed (((if 0 < p.2 then [", "] else []) ++ p.1.1).allM f) ((h.piecesInside (v :: track) p.1.2).allM f) := by
    rw [← List.append_assoc, allM_append]
  simp only [hentry]

/-- The structure of a value as text, from its entries. -/
theorem debugWithin_succ (h : Heap) (fuel : Nat) (track : List Value) (v : Value) :
    h.debugWithin (fuel + 1) track v =
      if v.isContainer then
        if v ∈ track then "[Circular]"
        else v.brackets.1 ++ ", ".intercalate ((h.entries v).map fun entry =>
          String.join entry.1 ++ h.debugWithin fuel (v :: track) entry.2) ++ v.brackets.2
      else v.plainDebug := by
  cases v with
  | array id =>
    have hv : (Value.array id).isContainer = true := rfl
    rw [debugWithin, entries, List.contains_eq_mem, List.map_map, if_pos hv]
    simp only [decide_eq_true_eq, Function.comp_def, String.join_nil, String.empty_append]
    rfl
  | object id =>
    have hv : (Value.object id).isContainer = true := rfl
    rw [debugWithin, entries, List.contains_eq_mem, List.map_map, if_pos hv]
    simp only [decide_eq_true_eq, Function.comp_def, join_singleton]
    rfl
  | _ => rfl

/-- The texts written for a value are its structure as text, if that has enough depth. -/
theorem join_piecesInside {fuel : Nat} {track : List Value} {v : Value} (hfuel : offTrack h.containers track < fuel) :
    String.join (h.piecesInside track v) = h.debugWithin fuel track v := by
  induction fuel generalizing track v with
  | zero => exact absurd hfuel (Nat.not_lt_zero _)
  | succ fuel ih =>
    have hentries (hnew : v ∉ track) : ((h.entries v).map fun entry =>
          String.join (entry.1 ++ h.piecesInside (v :: track) entry.2)) =
        (h.entries v).map fun entry => String.join entry.1 ++ h.debugWithin fuel (v :: track) entry.2 := by
      refine List.map_congr_left fun entry hentry => ?_
      have := offTrack_cons_lt (mem_containers hentry) hnew
      rw [String.join_append, ih (by omega)]
    rw [debugWithin_succ]
    by_cases hv : v.isContainer = true
    · rw [if_pos hv]
      by_cases hmet : v ∈ track
      · rw [piecesInside_of_mem hv hmet, if_pos hmet, join_singleton]
      · rw [piecesInside_of_notMem hv hmet, if_neg hmet, String.join_cons, String.join_append, join_intercalate,
          List.map_map, join_singleton, String.append_assoc]
        exact congrArg (fun parts => v.brackets.1 ++ (String.intercalate ", " parts ++ v.brackets.2)) (hentries hmet)
    · rw [if_neg hv, piecesInside_plain hv, join_singleton]

/-- Show a value, with the containers that the program is inside of on a track. Writing a text may be refused, and then
nothing more is written. -/
def showOn {σ : Type} (h : Heap) (write : String → StateM σ Bool) : Nat → Value →
    StateT (List Value) (StateT σ Option) Bool
  | 0, _ => throw ()
  | depth + 1, v =>
    if v.isContainer then
      enter v (put write "[Circular]") (followed (put write v.brackets.1) (followed
        ((h.entries v).zipIdx.allM fun ((label, x), i) =>
          followed (((if 0 < i then [", "] else []) ++ label).allM (put write)) (h.showOn write depth x))
        (put write v.brackets.2)))
    else put write v.plainDebug

theorem showOn_leaves {σ : Type} {write : String → StateM σ Bool} {depth : Nat} {track : List Value} {v : Value}
    (hnodup : track.Nodup) (hdepth : offTrack h.containers track < depth) :
    Leaves (h.showOn write depth v) track ((h.piecesInside track v).allM (sending write)) := by
  induction depth generalizing track v with
  | zero => exact absurd hdepth (Nat.not_lt_zero _)
  | succ depth ih =>
    rw [showOn]
    by_cases hv : v.isContainer = true
    · rw [if_pos hv]
      by_cases hmet : v ∈ track
      · rw [piecesInside_of_mem hv hmet, allM_singleton]
        exact .enter_of_mem hmet (.lift _)
      · rw [allM_piecesInside hv hmet]
        refine .enter_of_notMem hmet hnodup
          (.followed (.lift _) (.followed (.allM fun ((label, x), i) hx => ?_) (.lift _)))
        have := offTrack_cons_lt (mem_containers (List.fst_mem_of_mem_zipIdx hx)) hmet
        exact .followed (.allM fun _ _ => .lift _) (ih (List.nodup_cons.2 ⟨hmet, hnodup⟩) (by omega))
    · rw [if_neg hv, piecesInside_plain hv, allM_singleton]
      exact .lift _

/-! ### Walks leave the track -/

/-- The depth of a walk is at most one more than the number of containers, or of pairs of them. From every track without
repetition each walk goes through without ever having something on its track twice, and leaves the track as it was.
Begun on an empty track it gives the text of the value, writes its structure up to the text that is refused, and tells
whether the values have the same contents. -/
theorem walks_leave_track (h : Heap) :
    (∀ (v : Value) (track : List Nat), track.Nodup → ∃ text,
      (h.textOn (h.size + 1) v).run track = some (text, track) ∧ (track = [] → text = h.text v)) ∧
    (∀ (v : Value) (track : List Value), track.Nodup → ∃ pieces : List String,
      (∀ (σ : Type) (write : String → StateM σ Bool) (sink : σ),
        ((h.showOn write (h.size + 1) v).run track).run sink =
          some ((((pieces.allM write).run sink).1, track), ((pieces.allM write).run sink).2)) ∧
        (track = [] → String.join pieces = h.debugText v)) ∧
    (∀ (a b : Value) (track : List (Value × Value)), track.Nodup → ∃ same,
      (h.compareOn (h.size * h.size + 1) a b).run track = some (same, track) ∧
        (track = [] → same = h.structuralEqual a b)) := by
  refine ⟨fun v track hnodup => ?_, fun v track hnodup => ?_, fun a b track hnodup => ?_⟩
  · cases v with
    | array id =>
      have hoff : offTrack h.arrayIds track ≤ h.size := by
        refine (offTrack_le _ _).trans ?_
        rw [arrayIds, Finset.card_range, Heap.size]
        exact Nat.le_add_right _ _
      refine ⟨_, joinOn_leaves hnodup (Nat.lt_succ_of_le hoff), fun hnil => ?_⟩
      subst hnil
      exact (h.text_array id).symm
    | _ => exact ⟨_, rfl, fun _ => rfl⟩
  · have hoff : offTrack h.containers track ≤ h.size := (offTrack_le _ _).trans h.card_containers_le
    refine ⟨h.piecesInside track v, fun σ write sink => ?_, fun hnil => ?_⟩
    · rw [showOn_leaves hnodup (Nat.lt_succ_of_le hoff), StateT.run_map, run_allM_sending]
      rfl
    · subst hnil
      exact join_piecesInside (by omega)
  · have hoff := h.unmet_le track
    refine ⟨_, compareOn_leaves hnodup (Nat.lt_succ_of_le hoff), fun hnil => ?_⟩
    subst hnil
    exact (sameContents_eq_compareContents (by omega)).symm

/-- Arrays and objects that hold themselves and each other are walked through: a text inside one of them, a comparison
of two of them, and what is written of one until a text is refused. -/
theorem walks_leave_track_loops :
    (∃ text, (loops.textOn (loops.size + 1) (.array 1)).run [2] = some (text, [2])) ∧
      (loops.compareOn (loops.size * loops.size + 1) (.object 0) (.object 1)).run [] =
        some (loops.structuralEqual (.object 0) (.object 1), []) ∧
      ∃ ok written, ((loops.showOn (fun text => do modify (text :: ·); return text != "[Circular]") (loops.size + 1)
        (.object 0)).run []).run ([] : List String) = some ((ok, []), written) := by
  obtain ⟨htexts, hshown, hcompared⟩ := walks_leave_track loops
  obtain ⟨text, hrun, -⟩ := htexts (.array 1) [2] (by decide)
  obtain ⟨same, hsame, heq⟩ := hcompared (.object 0) (.object 1) [] .nil
  obtain ⟨pieces, hwritten, -⟩ := hshown (.object 0) [] .nil
  exact ⟨⟨text, hrun⟩, by rw [hsame, heq rfl], _, _, hwritten _ _ _⟩

end Heap

end LatentExpr
