import LatentExpr.Proofs.Heap.Walked
import LatentExpr.Proofs.Number.RoundTrip

/-!
Walks without a track. `plainText?` joins the elements of an array and `plainStructure?` shows a value, and nothing
says what they are inside of, so that no depth is enough for them where a container can be reached from itself. Where
none can a track never changes anything: what is on it lies behind (`Behind`), and nothing that lies behind comes again,
though one container may be met many times on different ways. So both give what the walks with a track give, within the
depth of these, and `[Circular]` is never written.
-/
namespace LatentExpr

/-! ### What cannot be reached from itself -/

section
variable {α : Type} {r : α → α → Prop} {x y : α} {track : List α}

/-- Nothing that can be reached from here can be reached from itself. -/
def Acyclic (r : α → α → Prop) (x : α) : Prop := ∀ y, Relation.ReflTransGen r x y → ¬ Relation.TransGen r y y

/-- Nothing on the track can be reached from here. -/
def Behind (r : α → α → Prop) (track : List α) (x : α) : Prop := ∀ y ∈ track, ¬ Relation.ReflTransGen r x y

theorem Acyclic.next (hx : Acyclic r x) (hxy : r x y) : Acyclic r y := fun z hz => hx z (.head hxy hz)

theorem acyclic_of_acc (hx : Acc (fun y x => r x y) x) : Acyclic r x := by
  induction hx with
  | intro x _ ih =>
    have hrest {y z : α} (hxy : r x y) (hyz : Relation.ReflTransGen r y z) : ¬ Relation.TransGen r z z :=
      ih y hxy z hyz
    intro z hz hloop
    rcases hz.cases_head with rfl | ⟨y, hxy, hyz⟩
    · obtain ⟨y, hxy, hyx⟩ := Relation.TransGen.head'_iff.1 hloop
      exact hrest hxy hyx hloop
    · exact hrest hxy hyz hloop

/-- Where each step leads to something smaller nothing is reached from itself. -/
theorem acyclic_of_lt (size : α → Nat) (hsize : ∀ x y, r x y → size y < size x) : Acyclic r x :=
  acyclic_of_acc ((Subrelation.wf (hsize _ _) (measure size).wf).apply x)

theorem Behind.nil : Behind r [] x := fun _ hy => absurd hy List.not_mem_nil

theorem Behind.notMem (hx : Behind r track x) : x ∉ track := fun hmem => hx x hmem .refl

/-- What is left behind stays behind. -/
theorem Behind.next (ht : Behind r track x) (hx : Acyclic r x) (hxy : r x y) : Behind r (x :: track) y := by
  intro z hz hyz
  rcases List.mem_cons.1 hz with rfl | hz
  · exact hx z .refl (.head' hxy hyz)
  · exact ht z hz (.head hxy hyz)

end

/-- A step that goes through for each member of a list goes through the list. -/
theorem mapM_eq_some_map {α β : Type} {xs : List α} {f : α → Option β} {g : α → β} (hfg : ∀ x ∈ xs, f x = some (g x)) :
    xs.mapM f = some (xs.map g) := by
  induction xs with
  | nil => rfl
  | cons x xs ih =>
    obtain ⟨hx, hxs⟩ := List.forall_mem_cons.1 hfg
    rw [List.mapM_cons, hx, ih hxs]
    rfl

theorem mem_of_mem_intercalate {α : Type} {separator : List α} {parts : List (List α)} {x : α}
    (hx : x ∈ separator.intercalate parts) : x ∈ separator ∨ ∃ part ∈ parts, x ∈ part := by
  induction parts with
  | nil => cases hx
  | cons part rest ih =>
    cases rest with
    | nil => exact .inr ⟨part, List.mem_cons_self, by simpa using hx⟩
    | cons next rest =>
      rw [List.intercalate_cons_cons, List.mem_append, List.mem_append] at hx
      rcases hx with (hx | hx) | hx
      · exact .inr ⟨part, List.mem_cons_self, hx⟩
      · exact .inl hx
      · exact (ih hx).imp_right fun ⟨part, hpart, hx⟩ => ⟨part, List.mem_cons_of_mem _ hpart, hx⟩

namespace Heap
variable {h : Heap}

/-! ### Texts -/

/-- The elements of an array joined as they come, if the walk ends within a depth. -/
def plainText? (h : Heap) : Nat → Nat → Option String
  | 0, _ => none
  | depth + 1, id => do
    let parts ← (h.elements id).toList.mapM fun
      | .undefined | .null => some ""
      | .array inner => h.plainText? depth inner
      | v => some v.plainText
    return ",".intercalate parts

theorem plainText?_of_acyclic {depth : Nat} {track : List Nat} {id : Nat} (hdepth : offTrack h.arrayIds track < depth)
    (hid : Acyclic h.HoldsArray id) (ht : Behind h.HoldsArray track id) :
    h.plainText? depth id = some (h.textInside track id) := by
  induction depth generalizing track id with
  | zero => exact absurd hdepth (Nat.not_lt_zero _)
  | succ depth ih =>
    rw [plainText?, textInside_of_notMem ht.notMem, mapM_eq_some_map (g := Value.partText (h.textInside (id :: track)))]
    · rfl
    intro v hv
    cases v with
    | array inner =>
      have hinner : h.HoldsArray id inner := Array.mem_toList_iff.1 hv
      have hless := offTrack_cons_lt (mem_arrayIds hinner) ht.notMem
      exact ih (by omega) (hid.next hinner) (ht.next hid hinner)
    | _ => rfl

/-! ### Structures -/

/-- The structure of a value, shown as it comes, if the walk ends within a depth. -/
def plainStructure? (h : Heap) : Nat → Value → Option String
  | 0, _ => none
  | depth + 1, v =>
    if v.isContainer then do
      let parts ← (h.entries v).mapM fun entry => do
        return String.join entry.1 ++ (← h.plainStructure? depth entry.2)
      return v.brackets.1 ++ ", ".intercalate parts ++ v.brackets.2
    else some v.plainDebug

theorem holds_of_mem_entries {v : Value} {entry : List String × Value} (hentry : entry ∈ h.entries v) :
    h.Holds v entry.2 := by
  cases v with
  | array id =>
    obtain ⟨x, hx, rfl⟩ := List.mem_map.1 hentry
    exact .element (Array.mem_toList_iff.1 hx)
  | object id =>
    obtain ⟨field, hfield, rfl⟩ := List.mem_map.1 hentry
    exact .field hfield
  | _ => cases hentry

theorem plainStructure?_of_acyclic {depth : Nat} {track : List Value} {v : Value}
    (hdepth : offTrack h.containers track < depth) (hv : Acyclic h.Holds v) (ht : Behind h.Holds track v) :
    h.plainStructure? depth v = some (h.debugWithin depth track v) := by
  induction depth generalizing track v with
  | zero => exact absurd hdepth (Nat.not_lt_zero _)
  | succ depth ih =>
    rw [plainStructure?, debugWithin_succ, if_neg ht.notMem]
    split
    · rw [mapM_eq_some_map (g := fun entry => String.join entry.1 ++ h.debugWithin depth (v :: track) entry.2)]
      · rfl
      intro entry hentry
      have hless := offTrack_cons_lt (mem_containers hentry) ht.notMem
      have hholds := holds_of_mem_entries hentry
      rw [ih (by omega) (hv.next hholds) (ht.next hv hholds)]
      rfl
    · rfl

end Heap

theorem Value.brackets_ne_circular (v : Value) : v.brackets.1 ≠ "[Circular]" ∧ v.brackets.2 ≠ "[Circular]" := by
  cases v <;> simp [brackets]

/-- No value that is no container is shown as circular. -/
theorem Value.plainDebug_ne_circular (v : Value) : v.plainDebug ≠ "[Circular]" := by
  intro heq
  cases v with
  | undefined | null | array | object | function | pending => exact absurd heq (by simp [plainDebug])
  | bool b => exact absurd heq (by cases b <;> simp [plainDebug])
  | number n =>
    -- the text of a number reads back, and this one does not read as a number
    have hread := n.ofText_toText
    rw [show n.toText = "[Circular]" from heq, show Number.ofText "[Circular]" = .nan by decide] at hread
    split at hread
    · cases hread
    · rw [← hread] at heq
      exact absurd heq (by decide)
  | string s =>
    have hquote := congrArg (fun text : String => text.toList.head?) heq
    simp [plainDebug, Text.quoted] at hquote

namespace Heap
variable {h : Heap}

theorem circular_notMem_of_mem_entries {v : Value} {entry : List String × Value} (hentry : entry ∈ h.entries v) :
    "[Circular]" ∉ entry.1 := by
  cases v with
  | array id =>
    obtain ⟨x, -, rfl⟩ := List.mem_map.1 hentry
    exact List.not_mem_nil
  | object id =>
    obtain ⟨field, -, rfl⟩ := List.mem_map.1 hentry
    rw [List.mem_singleton]
    intro heq
    have hlast := congrArg (fun text : String => text.toList.getLast?) heq
    simp at hlast
  | _ => cases hentry

theorem circular_notMem_piecesInside {track : List Value} {v : Value} (hv : Acyclic h.Holds v)
    (ht : Behind h.Holds track v) : "[Circular]" ∉ h.piecesInside track v := by
  induction hn : offTrack h.containers track using Nat.strong_induction_on generalizing track v with
  | _ n ih =>
    subst hn
    by_cases hcontainer : v.isContainer = true
    · rw [piecesInside_of_notMem hcontainer ht.notMem, List.mem_cons, List.mem_append, List.mem_singleton]
      rintro (hmem | hmem | hmem)
      · exact v.brackets_ne_circular.1 hmem.symm
      · rcases mem_of_mem_intercalate hmem with hmem | ⟨part, hpart, hmem⟩
        · simp at hmem
        · obtain ⟨entry, hentry, rfl⟩ := List.mem_map.1 hpart
          have hholds := holds_of_mem_entries hentry
          have hless := offTrack_cons_lt (mem_containers hentry) ht.notMem
          rcases List.mem_append.1 hmem with hmem | hmem
          · exact circular_notMem_of_mem_entries hentry hmem
          · exact ih _ hless (hv.next hholds) (ht.next hv hholds) rfl hmem
      · exact v.brackets_ne_circular.2 hmem.symm
    · rw [piecesInside_plain hcontainer, List.mem_singleton]
      exact fun heq => v.plainDebug_ne_circular heq.symm

end Heap

end LatentExpr
