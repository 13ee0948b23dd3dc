import Lisplet.Proofs.Reading

/-! Values that are read back from their own texts. Among them are all values that were read, unless
they hold floats, and all lists of integers, truth values and strings without quotes. -/
namespace Lisplet

namespace Integer

theorem ofDigits?_toDigits (n : Nat) : ofDigits? (Nat.toDigits 10 n) = some n := by
  have hdigits : (Nat.toDigits 10 n).all Char.isDigit = true :=
    List.all_eq_true.mpr fun c hc => Nat.isDigit_of_mem_toDigits (by omega) (by omega) hc
  have hvalue : ofDigits (Nat.toDigits 10 n) = n :=
    Nat.ofDigitChars_toDigits (by omega) (by omega)
  unfold ofDigits?
  split
  · rename_i hnil
    exact absurd hnil Nat.toDigits_ne_nil
  · rw [if_pos hdigits, hvalue]

/-- A run of digits has no sign. -/
theorem read?_toDigits (n : Nat) : read? (Nat.toDigits 10 n) = ofInt? n := by
  have hdigit (c : Char) (rest : List Char) (h : Nat.toDigits 10 n = c :: rest) :
      c.isDigit = true :=
    Nat.isDigit_of_mem_toDigits (by omega) (by omega) (h ▸ List.mem_cons_self)
  unfold read?
  split
  · rename_i rest h
    cases hdigit '+' rest h
  · rename_i rest h
    cases hdigit '-' rest h
  · simp [ofDigits?_toDigits]

theorem read?_minus_toDigits (n : Nat) : read? ('-' :: Nat.toDigits 10 n) = ofInt? (-n) := by
  unfold read?
  simp [ofDigits?_toDigits]

/-- An integer is read back from its text. -/
theorem read?_text (n : Int64) : read? (text n).toList = some n := by
  unfold text
  split
  · rename_i m hm
    have hint : ((m : Nat) : Int) = n.toInt := hm.symm
    rw [Nat.toList_repr, read?_toDigits, hint, ofInt?_toInt]
  · rename_i m hm
    have hint : -((m + 1 : Nat) : Int) = n.toInt := hm.symm
    have hsign : "-".toList = ['-'] := rfl
    rw [String.toList_append, Nat.toList_repr, hsign, List.singleton_append, read?_minus_toDigits,
      hint, ofInt?_toInt]

end Integer

namespace Reader

theorem isDelimiter_of_isDigit {c : Char} (comments : Bool) (h : c.isDigit = true) :
    isDelimiter comments c = false := by
  have hrange : 48 ≤ c.toNat ∧ c.toNat ≤ 57 := by
    simpa [Char.isDigit, UInt32.le_iff_toNat_le] using h
  have hne (d : Char) (hd : d.toNat < 48 ∨ 57 < d.toNat) : c ≠ d := by
    rintro rfl
    omega
  have hblank : Text.isBlank c = false := by
    simp [Text.isBlank, Text.blankRanges]
    omega
  simp [isDelimiter, isOpening, isClosing, hblank, hne]

theorem isBlock_integer (comments : Bool) (n : Int64) :
    IsBlock comments (Integer.text n).toList := by
  have hdigits (m : Nat) (c : Char) (hc : c ∈ Nat.toDigits 10 m) : c.isDigit = true :=
    Nat.isDigit_of_mem_toDigits (by omega) (by omega) hc
  have hquote (m : Nat) : '"' ∉ Nat.toDigits 10 m := fun hc => by cases hdigits m _ hc
  have hrun (m : Nat) : (Nat.toDigits 10 m).foldlM (quotedAfter comments) false = some false :=
    foldlM_quotedAfter_of_not_mem (hquote m) fun _ c hc =>
      isDelimiter_of_isDigit comments (hdigits m c hc)
  unfold Integer.text
  split
  · rw [Nat.toList_repr]
    exact ⟨Nat.toDigits_ne_nil, hrun _⟩
  · rename_i m hm
    rw [String.toList_append, Nat.toList_repr]
    have hsign : quotedAfter comments false '-' = some false := by cases comments <;> rfl
    refine ⟨by simp, ?_⟩
    change (('-' :: Nat.toDigits 10 (m + 1)).foldlM (quotedAfter comments) false) = _
    rw [List.foldlM_cons, hsign]
    exact hrun (m + 1)

theorem isBlock_string (comments : Bool) {text : List Char} (h : '"' ∉ text) :
    IsBlock comments ('"' :: text ++ ['"']) := by
  have hinside : text.foldlM (quotedAfter comments) true = some true :=
    foldlM_quotedAfter_of_not_mem h nofun
  refine ⟨by simp, ?_⟩
  change ((text ++ ['"']).foldlM (quotedAfter comments) true) = some false
  rw [List.foldlM_append, hinside]
  rfl

/-- Text that starts with a quote is no number. -/
theorem atom_quote (text : List Char) :
    atom ('"' :: text ++ ['"']) = .string (String.ofList text) := by
  have hinteger : Integer.read? ('"' :: (text ++ ['"'])) = none := by
    unfold Integer.read?
    simp [Integer.ofDigits?, Char.isDigit]
  have hnamed : Decimal.namedBits? ('"' :: (text ++ ['"'])) = none := by
    unfold Decimal.namedBits?
    split
    case h_4 => rfl
    all_goals
      rename_i h
      have hhead := congrArg (fun s : String => s.toList.head?) h
      rw [String.toList_ofList] at hhead
      simp at hhead
  have hfloat : Decimal.read? ('"' :: (text ++ ['"'])) = none := by
    simp [Decimal.read?, hnamed, Decimal.readLiteral?, Char.isDigit, Integer.ofDigits?]
  have hunquote : unquote? ('"' :: (text ++ ['"'])) = some text := by simp [unquote?]
  simp [atom, hinteger, hfloat, hunquote]

theorem eq_of_unquote? {text inside : List Char} (h : unquote? text = some inside) :
    text = '"' :: inside ++ ['"'] := by
  unfold unquote? at h
  split at h
  · rename_i rest
    split at h
    · rename_i hlast
      cases h
      obtain ⟨front, rfl⟩ := List.getLast?_eq_some_iff.mp hlast
      simp
    · cases h
  · cases h

/-- Whatever is no number is written like the text it was read from. -/
theorem write_atom (text : List Char) :
    (∃ n, atom text = .integer n) ∨ (∃ x, atom text = .float x) ∨
      ∀ name? vectorText acc,
        (atom text).write name? vectorText acc = acc ++ String.ofList text := by
  unfold atom
  split
  · exact .inl ⟨_, rfl⟩
  · split
    · exact .inr (.inl ⟨_, rfl⟩)
    · refine .inr (.inr fun name? vectorText acc => ?_)
      split
      · rename_i inside hunquote
        rw [eq_of_unquote? hunquote]
        simp [Value.write, Value.writeAtom, String.append_assoc]
      · split
        · rename_i htrue
          rw [htrue]
          rfl
        · split
          · rename_i hfalse
            rw [hfalse]
            rfl
          · rfl

end Reader

namespace Value

/-- A value is written in the same way whatever the store holds. -/
def Closed (v : Value) : Prop :=
  ∀ name? vectorText acc, v.write name? vectorText acc = acc ++ Store.empty.text v

theorem closed_of_write {v : Value} {t : String}
    (h : ∀ name? vectorText acc, v.write name? vectorText acc = acc ++ t) :
    v.Closed ∧ Store.empty.text v = t := by
  have htext : Store.empty.text v = t := by
    rw [Store.text, Store.writeInside, h, String.empty_append]
  refine ⟨fun name? vectorText acc => ?_, htext⟩
  rw [h, htext]

theorem Closed.text_eq {v : Value} (h : v.Closed) (s : Store) : s.text v = Store.empty.text v := by
  rw [Store.text, Store.writeInside, h, String.empty_append]

theorem writeTail_ofList {name? : ClosureId → Option String}
    {vectorText : String → VectorId → String} (v : Value) (vs : List Value)
    (h : ∀ w ∈ v :: vs, w.Closed) (acc : String) :
    writeTail name? vectorText acc (ofList (v :: vs)) =
      acc ++ " " ++ " ".intercalate ((v :: vs).map Store.empty.text) ++ ")" := by
  induction vs generalizing v acc with
  | nil =>
    rw [ofList_cons, writeTail, h v List.mem_cons_self, ofList_nil, writeTail]
    simp
  | cons w vs ih =>
    rw [ofList_cons, writeTail, h v List.mem_cons_self,
      ih w (fun u hu => h u (List.mem_cons_of_mem v hu))]
    simp [String.intercalate_cons_cons, String.append_assoc]

/-- A list is written as its elements between brackets. -/
theorem write_ofList {vs : List Value} (h : ∀ v ∈ vs, v.Closed)
    (name? : ClosureId → Option String) (vectorText : String → VectorId → String) (acc : String) :
    (ofList vs).write name? vectorText acc =
      acc ++ ("(" ++ " ".intercalate (vs.map Store.empty.text) ++ ")") := by
  cases vs with
  | nil => rfl
  | cons v vs =>
    rw [ofList_cons, write, h v List.mem_cons_self]
    cases vs with
    | nil =>
      rw [ofList_nil, writeTail]
      simp [String.append_assoc]
    | cons w vs =>
      rw [writeTail_ofList w vs fun u hu => h u (List.mem_cons_of_mem v hu)]
      simp [String.intercalate_cons_cons, String.append_assoc]

/-- A value whose text, with brackets at most `n` deep, spells the value itself. -/
structure Legible (n : Nat) (v : Value) : Prop where
  closed : v.Closed
  spelled : ∃ ls, Reader.Spells false (Store.empty.text v).toList ls ∧ Reader.Builds n ls [v]

namespace Legible

open Reader

theorem mono {n k : Nat} (hle : n ≤ k) {v : Value} (h : v.Legible n) : v.Legible k := by
  obtain ⟨hclosed, ls, hspells, hbuilds⟩ := h
  exact ⟨hclosed, ls, hspells, hbuilds.mono hle⟩

/-- A block is legible if it is the text of its own value. -/
theorem ofBlock {text : List Char} (hblock : IsBlock false text)
    (h : ∀ name? vectorText acc,
      (atom text).write name? vectorText acc = acc ++ String.ofList text) :
    (atom text).Legible 0 := by
  obtain ⟨hclosed, htext⟩ := closed_of_write h
  refine ⟨hclosed, [.block text], ?_, Builds.block text⟩
  rw [htext, String.toList_ofList]
  exact Spells.block hblock

theorem integer (n : Int64) : (Value.integer n).Legible 0 := by
  have hatom : atom (Integer.text n).toList = .integer n := by rw [atom, Integer.read?_text]
  have hlegible := ofBlock (isBlock_integer false n)
    (by simp [hatom, write, writeAtom])
  rwa [hatom] at hlegible

theorem boolean (b : Bool) : (Value.boolean b).Legible 0 := by
  cases b
  · exact @ofBlock ['#', 'f'] ⟨by simp, rfl⟩ fun _ _ _ => rfl
  · exact @ofBlock ['#', 't'] ⟨by simp, rfl⟩ fun _ _ _ => rfl

theorem string {t : String} (h : '"' ∉ t.toList) : (Value.string t).Legible 0 := by
  have hatom : atom ('"' :: t.toList ++ ['"']) = .string t := by
    rw [atom_quote, String.ofList_toList]
  have hwrite name? vectorText acc : (Reader.atom ('"' :: t.toList ++ ['"'])).write name? vectorText
      acc = acc ++ String.ofList ('"' :: t.toList ++ ['"']) := by
    rw [hatom]
    simp [write, writeAtom, String.append_assoc]
  have hlegible := ofBlock (isBlock_string false h) hwrite
  rwa [hatom] at hlegible

/-- The value of a block is legible, unless it is a float. -/
theorem atom {text : List Char} (hblock : IsBlock false text)
    (hfloat : ∀ x, Reader.atom text ≠ .float x) : (Reader.atom text).Legible 0 := by
  rcases write_atom text with ⟨n, hn⟩ | ⟨x, hx⟩ | hwrite
  · rw [hn]
    exact integer n
  · exact absurd hx (hfloat x)
  · exact ofBlock hblock hwrite

/-- Legible values with blanks between them spell these values. -/
theorem intercalate {n : Nat} {vs : List Value} (h : ∀ v ∈ vs, v.Legible n) :
    ∃ ls, Spells false (" ".intercalate (vs.map Store.empty.text)).toList ls ∧ Builds n ls vs := by
  induction vs with
  | nil => exact ⟨[], Spells.nil false, Builds.nil n⟩
  | cons v vs ih =>
    obtain ⟨-, ls, hspells, hbuilds⟩ := h v List.mem_cons_self
    obtain ⟨ms, hspells', hbuilds'⟩ := ih fun w hw => h w (List.mem_cons_of_mem v hw)
    cases vs with
    | nil => exact ⟨ls, by simpa using hspells, hbuilds⟩
    | cons w vs =>
      refine ⟨ls ++ ms, ?_, hbuilds.append hbuilds'⟩
      have hjoined := hspells.append hspells'.space (by rintro c ⟨⟩; rfl)
      simpa [String.intercalate_cons_cons] using hjoined

/-- A list of legible values is legible. -/
theorem ofList {n : Nat} {vs : List Value} (h : ∀ v ∈ vs, v.Legible n) :
    (Value.ofList vs).Legible (n + 1) := by
  obtain ⟨hclosed, htext⟩ := closed_of_write (write_ofList fun v hv => (h v hv).closed)
  obtain ⟨ls, hspells, hbuilds⟩ := intercalate h
  refine ⟨hclosed, .opening '(' :: ls ++ [.closing ')'], ?_, hbuilds.list '(' ')'⟩
  have hbrackets := (hspells.append (Spells.closing false) (by rintro c ⟨⟩; rfl)).opening
  simpa [htext] using hbrackets

/-- Legible values are read back from their texts with blanks between them. -/
theorem readProgram_eq {n : Nat} {vs : List Value} (h : ∀ v ∈ vs, v.Legible n)
    (hroom : n < maxReadDepth) (s : Store) :
    readProgram false (" ".intercalate (vs.map s.text)) = .ok vs := by
  obtain ⟨ls, hspells, hbuilds⟩ := intercalate h
  have htexts : vs.map s.text = vs.map Store.empty.text :=
    List.map_congr_left fun v hv => (h v hv).closed.text_eq s
  rw [htexts, readProgram_eq_ok_iff]
  exact values_of_spells hspells hbuilds hroom

theorem readOne_eq {n : Nat} {v : Value} (h : v.Legible n) (hroom : n < maxReadDepth)
    (s : Store) : readOne (s.text v) = .ok v := by
  have hprogram := @readProgram_eq n [v] (by simpa using h) hroom s
  rw [List.map_singleton, String.intercalate_singleton] at hprogram
  rw [readOne, hprogram]
  rfl

end Legible

/-- Integers, truth values, strings without quotes, and lists of such values, at most `n` of them
inside each other. -/
inductive Plain : Nat → Value → Prop where
  | integer (n : Nat) (k : Int64) : Plain n (.integer k)
  | boolean (n : Nat) (b : Bool) : Plain n (.boolean b)
  | string (n : Nat) {t : String} (h : '"' ∉ t.toList) : Plain n (.string t)
  | list {n : Nat} {vs : List Value} (h : ∀ v ∈ vs, Plain n v) : Plain (n + 1) (.ofList vs)

theorem Plain.legible {n : Nat} {v : Value} (h : v.Plain n) : v.Legible n := by
  induction h with
  | integer n k => exact (Legible.integer k).mono (Nat.zero_le n)
  | boolean n b => exact (Legible.boolean b).mono (Nat.zero_le n)
  | string n h => exact (Legible.string h).mono (Nat.zero_le n)
  | list _ ih => exact .ofList ih

end Value

namespace Reader

def Lexeme.isFloat : Lexeme → Bool
  | block text =>
    match atom text with
    | .float _ => true
    | _ => false
  | _ => false

/-- Whether a block of a text is read as a float. -/
def hasFloat (comments : Bool) (source : String) : Bool :=
  match tokens comments source.toList with
  | .ok ts => ts.any fun t => t.lexeme.isFloat
  | .error _ => false

namespace Assembly

/-- Every list that is open holds values that fit into the depth left to it. -/
def Fits (items : List Value) : List (List Value × Nat) → Prop
  | [] => ∀ v ∈ items, v.Legible (maxReadDepth - 1)
  | (outer, _) :: enclosing =>
    enclosing.length + 1 < maxReadDepth ∧
      (∀ v ∈ items, v.Legible (maxReadDepth - 1 - (enclosing.length + 1))) ∧
      Fits outer enclosing

theorem Fits.cons {items : List Value} {enclosing : List (List Value × Nat)} {v : Value}
    (h : Fits items enclosing) (hv : v.Legible (maxReadDepth - 1 - enclosing.length)) :
    Fits (v :: items) enclosing := by
  cases enclosing with
  | nil => exact List.forall_mem_cons.mpr ⟨hv, h⟩
  | cons frame enclosing => exact ⟨h.1, List.forall_mem_cons.mpr ⟨hv, h.2.1⟩, h.2.2⟩

/-- One more token keeps everything in its depth. -/
theorem Fits.feed {a b : Assembly} {t : Token} (h : Fits a.items a.enclosing)
    (ht : ∀ text, t.lexeme = .block text → (atom text).Legible 0) (hb : a.feed t = .ok b) :
    Fits b.items b.enclosing := by
  unfold Assembly.feed at hb
  split at hb
  · split at hb
    · cases hb
    · cases hb
      exact ⟨by omega, nofun, h⟩
  · rename_i bracket _
    split at hb
    · cases hb
    · rename_i outer offset enclosing henclosing
      cases hb
      rw [henclosing] at h
      obtain ⟨hroom, hitems, houter⟩ := h
      have hlist : (Value.ofList a.items.reverse).Legible
          (maxReadDepth - 1 - (enclosing.length + 1) + 1) :=
        .ofList fun v hv => hitems v (List.mem_reverse.mp hv)
      exact houter.cons (hlist.mono (by omega))
  · rename_i text htext
    cases hb
    exact h.cons ((ht text htext).mono (Nat.zero_le _))

theorem Fits.foldlM {ts : List Token} {a b : Assembly} (h : Fits a.items a.enclosing)
    (hts : ∀ t ∈ ts, ∀ text, t.lexeme = .block text → (atom text).Legible 0)
    (hb : ts.foldlM Assembly.feed a = .ok b) : Fits b.items b.enclosing := by
  induction ts generalizing a with
  | nil =>
    cases hb
    exact h
  | cons t ts ih =>
    rw [List.foldlM_cons] at hb
    cases hfeed : a.feed t with
    | error issue =>
      rw [hfeed] at hb
      cases hb
    | ok next =>
      rw [hfeed] at hb
      exact ih (h.feed (hts t List.mem_cons_self) hfeed)
        (fun u hu => hts u (List.mem_cons_of_mem t hu)) hb

end Assembly

theorem legible_of_assemble {ts : List Token} {vs : List Value}
    (hts : ∀ t ∈ ts, ∀ text, t.lexeme = .block text → (atom text).Legible 0)
    (h : assemble ts = .ok vs) : ∀ v ∈ vs, v.Legible (maxReadDepth - 1) := by
  have hfits := @Assembly.Fits.foldlM ts .start _ nofun hts (assemble_eq_ok_iff.mp h)
  exact fun v hv => hfits v (List.mem_reverse.mpr hv)

/-- Every value that was read is legible, where no block is a float. -/
theorem legible_of_readProgram {comments : Bool} {source : String} {vs : List Value}
    (h : readProgram comments source = .ok vs) (hfloat : hasFloat comments source = false) :
    ∀ v ∈ vs, v.Legible (maxReadDepth - 1) := by
  have hvalues := readProgram_eq_ok_iff.mp h
  unfold values at hvalues
  unfold hasFloat at hfloat
  cases htokens : tokens comments source.toList with
  | error offset =>
    rw [htokens] at hvalues
    cases hvalues
  | ok ts =>
    rw [htokens] at hvalues hfloat
    refine legible_of_assemble (fun t ht text htext => ?_) hvalues
    have hblock := isBlock_of_tokens htokens ht htext
    refine .atom hblock.without_comments fun x hx => ?_
    have hany : (ts.any fun t => t.lexeme.isFloat) = true :=
      List.any_eq_true.mpr ⟨t, ht, by rw [htext, Lexeme.isFloat, hx]⟩
    exact absurd (hany.symm.trans hfloat) (by simp)

/-- Reading undoes printing. Values that were read, with comments or without, are read back from
their texts, each alone and all with blanks between them, unless a block among them is a float; and
so are integers, truth values, strings without quotes and lists of such values. -/
theorem reading_undoes_printing (s : Store) :
    (∀ comments source vs, readProgram comments source = .ok vs →
      hasFloat comments source = false →
      (∀ v ∈ vs, readOne (s.text v) = .ok v) ∧
        readProgram false (" ".intercalate (vs.map s.text)) = .ok vs) ∧
    ∀ v : Value, v.Plain 255 → readOne (s.text v) = .ok v := by
  refine ⟨fun comments source vs h hfloat => ?_, fun v hv => hv.legible.readOne_eq (by decide) s⟩
  have hlegible := legible_of_readProgram h hfloat
  exact ⟨fun v hv => (hlegible v hv).readOne_eq (by decide) s,
    Value.Legible.readProgram_eq hlegible (by decide) s⟩

theorem reading_undoes_printing_mixed :
    let source := "(f \"a;b\" x\"y z\"; [\n-07) +9()"
    let vs := [Value.ofList [.symbol "f", .string "a;b", .symbol "x\"y z\"", .integer (-7)],
      .integer 9, .nil]
    let v := Value.ofList [.integer Int64.minValue, .string ") ;", .ofList [.nil, .boolean true]]
    readProgram true source = .ok vs ∧ hasFloat true source = false ∧ v.Plain 255 ∧
      (∀ v ∈ vs, readOne (Store.empty.text v) = .ok v) ∧
      readProgram false (" ".intercalate (vs.map Store.empty.text)) = .ok vs ∧
      readOne (Store.empty.text v) = .ok v := by
  intro source vs v
  have hread : readProgram true source = .ok vs := by
    unfold source vs
    rfl
  have hfloat : hasFloat true source = false := by decide +kernel
  have hplain : v.Plain 255 := by
    refine .list fun w hw => ?_
    simp only [List.mem_cons, List.not_mem_nil, or_false] at hw
    rcases hw with rfl | rfl | rfl
    · exact .integer _ _
    · exact .string _ (by decide +kernel)
    · refine .list fun w hw => ?_
      simp only [List.mem_cons, List.not_mem_nil, or_false] at hw
      rcases hw with rfl | rfl
      · exact @Value.Plain.list 252 [] (by simp)
      · exact .boolean _ _
  obtain ⟨hprograms, hvalues⟩ := reading_undoes_printing .empty
  obtain ⟨heach, hall⟩ := hprograms true source vs hread hfloat
  exact ⟨hread, hfloat, hplain, heach, hall, hvalues v hplain⟩

end Reader

end Lisplet
