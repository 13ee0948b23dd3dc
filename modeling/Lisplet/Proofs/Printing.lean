import Lisplet.Proofs.Printing.Outline
import Mathlib.Logic.Relation

/-! Printing is cut short just where a vector would open inside itself. A value of which no vector
is reached from itself has the text that it has without a look at which vectors are open; for other
values writing like that comes to no end. -/
namespace Lisplet

inductive Descent where
  | head
  | tail
  | item (slot : Nat)

def Outline.at? : Outline → List Descent → Option Outline
  | o, [] => some o
  | pair head _, .head :: path => head.at? path
  | pair _ tail, .tail :: path => tail.at? path
  | vector items, .item slot :: path => items[slot]?.bind fun item => item.at? path
  | _, _ :: _ => none

theorem Outline.at?_leaf (v : Value) (step : Descent) (path : List Descent) :
    (leaf v).at? (step :: path) = none := by
  cases step <;> rfl

theorem Outline.at?_cut (step : Descent) (path : List Descent) :
    cut.at? (step :: path) = none := by
  cases step <;> rfl

namespace Store

/-- A path leads from a value into some vectors, the outermost first, and to a value there. -/
inductive Leads (s : Store) : Value → List Descent → List VectorId → Value → Prop
  | here (v : Value) : Leads s v [] [] v
  | head {head tail w : Value} {path : List Descent} {entered : List VectorId}
    (h : Leads s head path entered w) : Leads s (.pair head tail) (.head :: path) entered w
  | tail {head tail w : Value} {path : List Descent} {entered : List VectorId}
    (h : Leads s tail path entered w) : Leads s (.pair head tail) (.tail :: path) entered w
  | item {id : VectorId} {slot : Nat} {v w : Value} {path : List Descent}
    {entered : List VectorId} (hv : (s.items id)[slot]? = some v) (h : Leads s v path entered w) :
    Leads s (.vector id) (.item slot :: path) (id :: entered) w

variable {s : Store} {opened : List VectorId}

theorem at?_outline_item {id : VectorId} {slot : Nat} {path : List Descent} {o : Outline} :
    (s.outline opened (.vector id)).at? (.item slot :: path) = some o ↔
      id ∉ opened ∧ ∃ v, (s.items id)[slot]? = some v ∧
        (s.outline (id :: opened) v).at? path = some o := by
  by_cases hid : id ∈ opened
  · simp [outline_vector_of_mem hid, Outline.at?_cut, hid]
  · rw [outline_vector_of_not_mem hid, Outline.at?, List.getElem?_map, Array.getElem?_toList]
    cases (s.items id)[slot]? <;> simp [hid]

/-- The outline goes where a path does that enters no vector twice and none that is open. -/
theorem at?_outline_of_leads {v w : Value} {path : List Descent} {entered : List VectorId}
    (h : s.Leads v path entered w) (hnodup : entered.Nodup) (hfree : ∀ id ∈ entered, id ∉ opened) :
    (s.outline opened v).at? path = some (s.outline (entered.reverse ++ opened) w) := by
  induction h generalizing opened with
  | here v => rfl
  | head _ ih =>
    rw [outline_pair]
    exact ih hnodup hfree
  | tail _ ih =>
    rw [outline_pair]
    exact ih hnodup hfree
  | @item id slot v w path entered hv _ ih =>
    obtain ⟨hid, hfree⟩ := List.forall_mem_cons.mp hfree
    obtain ⟨hnew, hnodup⟩ := List.nodup_cons.mp hnodup
    have hfree' : ∀ other ∈ entered, other ∉ id :: opened := by
      intro other hother hmem
      rcases List.mem_cons.mp hmem with rfl | hmem
      · exact hnew hother
      · exact hfree other hother hmem
    rw [List.reverse_cons, List.append_assoc]
    exact at?_outline_item.mpr ⟨hid, v, hv, ih hnodup hfree'⟩

/-- The outline goes nowhere else. -/
theorem leads_of_at?_outline {v : Value} {path : List Descent} {o : Outline}
    (h : (s.outline opened v).at? path = some o) :
    ∃ entered w, s.Leads v path entered w ∧ entered.Nodup ∧ (∀ id ∈ entered, id ∉ opened) ∧
      s.outline (entered.reverse ++ opened) w = o := by
  induction path generalizing opened v with
  | nil => exact ⟨[], v, .here v, .nil, List.forall_mem_nil _, Option.some_inj.mp h⟩
  | cons step path ih =>
    cases v with
    | pair head tail =>
      rw [outline_pair] at h
      cases step with
      | head =>
        obtain ⟨entered, w, hleads, hentered⟩ := ih h
        exact ⟨entered, w, .head hleads, hentered⟩
      | tail =>
        obtain ⟨entered, w, hleads, hentered⟩ := ih h
        exact ⟨entered, w, .tail hleads, hentered⟩
      | item slot => cases h
    | vector id =>
      cases step with
      | item slot =>
        obtain ⟨hid, v, hv, h⟩ := at?_outline_item.mp h
        obtain ⟨entered, w, hleads, hnodup, hfree, ho⟩ := ih h
        refine ⟨id :: entered, w, .item hv hleads, List.nodup_cons.mpr ⟨?_, hnodup⟩,
          List.forall_mem_cons.mpr ⟨hid, ?_⟩, ?_⟩
        · exact fun hmem => hfree id hmem List.mem_cons_self
        · exact fun other hother hmem => hfree other hother (List.mem_cons_of_mem id hmem)
        · rw [List.reverse_cons, List.append_assoc]
          exact ho
      | _ =>
        by_cases hid : id ∈ opened
        · rw [outline_vector_of_mem hid] at h
          cases h
        · rw [outline_vector_of_not_mem hid] at h
          cases h
    | _ =>
      rw [outline_leaf (by simp) (by simp), Outline.at?_leaf] at h
      cases h

theorem outline_eq_cut_iff {v : Value} :
    s.outline opened v = .cut ↔ ∃ id ∈ opened, v = .vector id := by
  cases v with
  | vector id =>
    by_cases hid : id ∈ opened
    · simp [outline_vector_of_mem, hid]
    · simp [outline_vector_of_not_mem, hid]
  | pair head tail => simp
  | _ => simp [outline_leaf]

theorem outline_eq_vector_iff {v : Value} :
    (∃ items, s.outline opened v = .vector items) ↔ ∃ id, id ∉ opened ∧ v = .vector id := by
  cases v with
  | vector id =>
    by_cases hid : id ∈ opened
    · simp [outline_vector_of_mem, hid]
    · simp [outline_vector_of_not_mem, hid]
  | pair head tail => simp
  | _ => simp [outline_leaf]

/-- The outline of a value goes where a path does that enters no vector twice. -/
theorem at?_outline_iff {v : Value} {path : List Descent} {o : Outline} :
    (s.outline [] v).at? path = some o ↔ ∃ entered w, s.Leads v path entered w ∧
      entered.Nodup ∧ s.outline entered.reverse w = o := by
  constructor
  · intro h
    obtain ⟨entered, w, hleads, hnodup, -, ho⟩ := leads_of_at?_outline h
    exact ⟨entered, w, hleads, hnodup, by rwa [List.append_nil] at ho⟩
  · rintro ⟨entered, w, hleads, hnodup, rfl⟩
    rw [at?_outline_of_leads hleads hnodup (fun _ _ => List.not_mem_nil), List.append_nil]

theorem at?_outline_eq_cut_iff {v : Value} {path : List Descent} :
    (s.outline [] v).at? path = some .cut ↔
      ∃ entered id, s.Leads v path entered (.vector id) ∧ entered.Nodup ∧ id ∈ entered := by
  rw [at?_outline_iff]
  constructor
  · rintro ⟨entered, w, hleads, hnodup, ho⟩
    obtain ⟨id, hid, rfl⟩ := outline_eq_cut_iff.mp ho
    exact ⟨entered, id, hleads, hnodup, List.mem_reverse.mp hid⟩
  · rintro ⟨entered, id, hleads, hnodup, hid⟩
    exact ⟨entered, _, hleads, hnodup, outline_vector_of_mem (List.mem_reverse.mpr hid)⟩

theorem at?_outline_eq_vector_iff {v : Value} {path : List Descent} :
    (∃ items, (s.outline [] v).at? path = some (.vector items)) ↔
      ∃ entered id, s.Leads v path entered (.vector id) ∧ entered.Nodup ∧ id ∉ entered := by
  constructor
  · rintro ⟨items, ho⟩
    obtain ⟨entered, w, hleads, hnodup, ho⟩ := at?_outline_iff.mp ho
    obtain ⟨id, hid, rfl⟩ := outline_eq_vector_iff.mp ⟨items, ho⟩
    exact ⟨entered, id, hleads, hnodup, fun hmem => hid (List.mem_reverse.mpr hmem)⟩
  · rintro ⟨entered, id, hleads, hnodup, hid⟩
    have ho := outline_vector_of_not_mem (s := s) fun hmem => hid (List.mem_reverse.mp hmem)
    exact ⟨_, at?_outline_iff.mpr ⟨entered, _, hleads, hnodup, ho⟩⟩

inductive Has (s : Store) : Value → Value → Prop
  | head (head tail : Value) : Has s (.pair head tail) head
  | tail (head tail : Value) : Has s (.pair head tail) tail
  | item {id : VectorId} {v : Value} (hv : v ∈ s.items id) : Has s (.vector id) v

/-- No vector that is reached from a value is reached from itself. -/
def Acyclic (s : Store) (v : Value) : Prop :=
  ∀ id, Relation.ReflTransGen s.Has v (.vector id) →
    ¬ Relation.TransGen s.Has (.vector id) (.vector id)

theorem Acyclic.part {v w : Value} (h : s.Acyclic v) (hw : s.Has v w) : s.Acyclic w :=
  fun id hid => h id (.head hw hid)

/-- Where no part reaches a vector from itself, the whole does not either: it would do so through a
part. -/
theorem acyclic_of_parts {v : Value} (h : ∀ w, s.Has v w → s.Acyclic w) : s.Acyclic v := by
  intro id hid hcycle
  rcases Relation.ReflTransGen.cases_head_iff.mp hid with rfl | ⟨w, hw, hid⟩
  · obtain ⟨w, hw, hback⟩ := Relation.TransGen.head'_iff.mp hcycle
    exact h w hw id hback hcycle
  · exact h w hw id hid hcycle

-- The recursive calls are piped, so that the term that is defined does not record where in the text
-- they stand.
mutual

def plainText (s : Store) (v : Value) : Option String :=
  match v with
  | .pair head tail => do
    let first ← s |>.plainText head
    let rest ← s |>.plainRest tail
    some ("(" ++ first ++ rest)
  | .vector id => do
    let items ← (s.items id).toList.mapM fun v => s |>.plainText v
    some ("#(" ++ " ".intercalate items ++ ")")
  | v => some (v.atomText s.closureName?)
partial_fixpoint

def plainRest (s : Store) (v : Value) : Option String :=
  match v with
  | .nil => some ")"
  | .pair head tail => do
    let next ← s |>.plainText head
    let rest ← s |>.plainRest tail
    some (" " ++ next ++ rest)
  | v => do
    let ending ← s |>.plainText v
    some (" . " ++ ending ++ ")")
partial_fixpoint

end

theorem mapM_eq_some_map {α β : Type} {f : α → Option β} {g : α → β} {vs : List α}
    (h : ∀ v ∈ vs, f v = some (g v)) : vs.mapM f = some (vs.map g) := by
  induction vs with
  | nil => rfl
  | cons v vs ih =>
    obtain ⟨hv, hvs⟩ := List.forall_mem_cons.mp h
    rw [List.mapM_cons, hv, ih hvs]
    rfl

theorem exists_of_mapM_eq_some {α β : Type} {f : α → Option β} {vs : List α} {ts : List β}
    (h : vs.mapM f = some ts) : ∀ v ∈ vs, ∃ t, f v = some t := by
  induction vs generalizing ts with
  | nil => exact List.forall_mem_nil _
  | cons v vs ih =>
    rw [List.mapM_cons] at h
    obtain ⟨t, ht, h⟩ := Option.bind_eq_some_iff.mp h
    obtain ⟨ts, hts, -⟩ := Option.bind_eq_some_iff.mp h
    exact List.forall_mem_cons.mpr ⟨⟨t, ht⟩, ih hts⟩

theorem plain_leaf {v : Value} (hpair : ∀ head tail, v ≠ .pair head tail)
    (hvector : ∀ id, v ≠ .vector id) :
    s.plainText v = some ((Outline.leaf v).text s.closureName?) ∧
      s.plainRest v = some ((Outline.leaf v).rest s.closureName?) := by
  cases v with
  | pair head tail => exact absurd rfl (hpair head tail)
  | vector id => exact absurd rfl (hvector id)
  | _ => simp [plainText, plainRest, Outline.text, Outline.rest]

/-- Where no vector is reached from itself, and none of the open ones is reached, it makes no
difference to look at which are open. -/
theorem plain_of_acyclic {v : Value} (hacyclic : s.Acyclic v)
    (hfree : ∀ id ∈ opened, ¬ Relation.ReflTransGen s.Has v (.vector id)) :
    s.plainText v = some ((s.outline opened v).text s.closureName?) ∧
      s.plainRest v = some ((s.outline opened v).rest s.closureName?) := by
  induction opened, v using outline.induct (s := s) with
  | case1 opened head tail ihh iht =>
    have hpart {w : Value} (hw : s.Has (.pair head tail) w) :
        ∀ id ∈ opened, ¬ Relation.ReflTransGen s.Has w (.vector id) :=
      fun id hid hreach => hfree id hid (.head hw hreach)
    have hhead := ihh (hacyclic.part (.head head tail)) (hpart (.head head tail))
    have htail := iht (hacyclic.part (.tail head tail)) (hpart (.tail head tail))
    rw [plainText, plainRest, hhead.1, htail.2, outline_pair, Outline.text, Outline.rest]
    exact ⟨rfl, rfl⟩
  | case2 opened id hid => exact absurd .refl (hfree id hid)
  | case3 opened id hid ih =>
    have hitems : ∀ v ∈ (s.items id).toList, s.plainText v =
        some ((s.outline (id :: opened) v).text s.closureName?) := by
      intro v hv
      have hpart : s.Has (.vector id) v := .item (Array.mem_toList_iff.mp hv)
      refine (ih v hv (hacyclic.part hpart) ?_).1
      -- From an item, the vector itself is not reached, as that would be a way back to it.
      refine List.forall_mem_cons.mpr ⟨fun hback => ?_, fun other hother hreach => ?_⟩
      · exact hacyclic id .refl (.head' hpart hback)
      · exact hfree other hother (.head hpart hreach)
    have htext : s.plainText (.vector id) =
        some ((s.outline opened (.vector id)).text s.closureName?) := by
      rw [plainText, mapM_eq_some_map hitems, outline_vector_of_not_mem hid, Outline.text,
        List.map_map]
      rfl
    refine ⟨htext, ?_⟩
    rw [plainRest, htext, rest_outline_vector]
    · rfl
    all_goals simp
  | case4 opened v hpair hvector =>
    rw [outline_leaf hpair hvector]
    exact plain_leaf hpair hvector

theorem acyclic_of_no_part {v : Value} (h : ∀ w, ¬ s.Has v w) : s.Acyclic v :=
  acyclic_of_parts fun w hw => absurd hw (h w)

theorem acyclic_pair {head tail : Value} (hhead : s.Acyclic head) (htail : s.Acyclic tail) :
    s.Acyclic (.pair head tail) := by
  refine acyclic_of_parts fun w hw => ?_
  cases hw with
  | head => exact hhead
  | tail => exact htail

/-- Writing comes to an end only where no vector is reached from itself. -/
theorem acyclic_of_plain {v : Value} {text : String} (h : s.plainText v = some text) :
    s.Acyclic v := by
  refine plainText.partial_correctness s (fun v _ => s.Acyclic v) (fun v _ => s.Acyclic v)
    (fun text rest htext hrest v written h => ?_) (fun text rest htext hrest v written h => ?_)
    v text h
  · cases v with
    | pair head tail =>
      obtain ⟨first, hfirst, h⟩ := Option.bind_eq_some_iff.mp h
      obtain ⟨others, hothers, -⟩ := Option.bind_eq_some_iff.mp h
      exact acyclic_pair (htext head first hfirst) (hrest tail others hothers)
    | vector id =>
      obtain ⟨items, hitems, -⟩ := Option.bind_eq_some_iff.mp h
      refine acyclic_of_parts fun w hw => ?_
      cases hw with
      | item hw =>
        obtain ⟨t, ht⟩ := exists_of_mapM_eq_some hitems w (Array.mem_toList_iff.mpr hw)
        exact htext w t ht
    | _ => exact acyclic_of_no_part (by rintro w ⟨⟩)
  · cases v with
    | pair head tail =>
      obtain ⟨next, hnext, h⟩ := Option.bind_eq_some_iff.mp h
      obtain ⟨others, hothers, -⟩ := Option.bind_eq_some_iff.mp h
      exact acyclic_pair (htext head next hnext) (hrest tail others hothers)
    | nil => exact acyclic_of_no_part (by rintro w ⟨⟩)
    | _ =>
      obtain ⟨ending, hending, -⟩ := Option.bind_eq_some_iff.mp h
      exact htext _ ending hending

/-- The text without a look at open vectors is the text, where there is one. -/
theorem plainText_eq_some_iff {v : Value} {text : String} :
    s.plainText v = some text ↔ s.Acyclic v ∧ s.text v = text := by
  have hplain (hacyclic : s.Acyclic v) : s.plainText v = some (s.text v) := by
    rw [text_eq]
    exact (plain_of_acyclic hacyclic (List.forall_mem_nil _)).1
  constructor
  · intro h
    have hacyclic := acyclic_of_plain h
    rw [hplain hacyclic] at h
    exact ⟨hacyclic, Option.some_inj.mp h⟩
  · rintro ⟨hacyclic, rfl⟩
    exact hplain hacyclic

/-- Printing comes to an end, whatever vectors a value goes through: its text is that of its
outline, which is found without a bound. A vector is cut short in it where a path leads that is
inside of that vector already, and written out where one leads that is not; no path goes through
what is cut short, so that the vectors on it are different ones. A value of which no vector is
reached from itself has the text that it has without a look at which vectors are open, and other
values have none then. -/
theorem text_cuts_cycles (s : Store) (v : Value) :
    let outline := s.outline [] v
    s.text v = outline.text s.closureName? ∧
    (∀ path, outline.at? path = some .cut ↔
      ∃ entered id, s.Leads v path entered (.vector id) ∧ entered.Nodup ∧ id ∈ entered) ∧
    (∀ path, (∃ items, outline.at? path = some (.vector items)) ↔
      ∃ entered id, s.Leads v path entered (.vector id) ∧ entered.Nodup ∧ id ∉ entered) ∧
    ∀ text, s.plainText v = some text ↔ s.Acyclic v ∧ s.text v = text := by
  intro outline
  refine ⟨text_eq s v, fun path => ?_, fun path => ?_, fun text => ?_⟩
  · exact at?_outline_eq_cut_iff
  · exact at?_outline_eq_vector_iff
  · exact plainText_eq_some_iff

/-- A vector that holds itself, and one that holds another twice. -/
example :
    let s : Store := { Store.empty with
      vectors := #[#[.integer 1, .vector ⟨0⟩], #[.integer 2], #[.vector ⟨1⟩, .vector ⟨1⟩]] }
    s.text (.vector ⟨0⟩) = "#(1 #(...))" ∧ s.text (.vector ⟨2⟩) = "#(#(2) #(2))" := by
  decide +kernel

end Store

end Lisplet
