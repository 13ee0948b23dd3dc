import Lisplet.CommandLine
import Lisplet.Proofs.Congruence
import Lisplet.Proofs.Frames.Evaluation

/-! Evaluation that takes nothing from the input does not depend on it, nor on what has been printed
before. -/
namespace Lisplet

namespace Store

/-- The store with another input, and with a text before its output. -/
def elsewhere (s : Store) (input : List UInt8) (before : String) : Store :=
  { s with input, output := before ++ s.output }

variable (s : Store) (input : List UInt8) (before : String)

theorem closures_elsewhere : (s.elsewhere input before).closures = s.closures := rfl

theorem akin_elsewhere : (s.elsewhere input before).Akin s := ⟨rfl, rfl⟩

theorem find?_elsewhere (name : String) (fs : List FrameId) :
    (s.elsewhere input before).find? name fs = s.find? name fs := by
  induction fs with
  | nil => rfl
  | cons f fs ih =>
    rw [find?, find?, ih]
    rfl

theorem frameOf?_elsewhere (name : String) (fs : List FrameId) :
    (s.elsewhere input before).frameOf? name fs = s.frameOf? name fs := by
  induction fs with
  | nil => rfl
  | cons f fs ih =>
    rw [frameOf?, frameOf?, ih]
    rfl

theorem nameValue_elsewhere (name : String) (value : Value) :
    (s.elsewhere input before).nameValue name value =
      (s.nameValue name value).elsewhere input before := by
  cases value <;> rfl

end Store

namespace Machine

variable (m : Machine) (s : Store) (input : List UInt8) (before : String)

theorem find?_elsewhere (scope : FrameId) (name : String) :
    m.find? (s.elsewhere input before) scope name = m.find? s scope name := by
  rw [find?, find?, Store.find?_elsewhere]
  rfl

theorem loopName?_elsewhere (id : ClosureId) (closure : Closure) :
    m.loopName? (s.elsewhere input before) id closure = m.loopName? s id closure := by
  exact loopName?_congr id fun given _ => m.find?_elsewhere s input before closure.scope given.name

end Machine

namespace Console

theorem splitLine_append (bytes : List UInt8) :
    (splitLine bytes).1 ++ (splitLine bytes).2 = bytes := by
  induction bytes with
  | nil => rfl
  | cons b bytes ih =>
    rw [splitLine]
    split
    · rfl
    · exact congrArg (b :: ·) ih

theorem splitLine_fst_ne_nil {bytes : List UInt8} (h : bytes ≠ []) : (splitLine bytes).1 ≠ [] := by
  cases bytes with
  | nil => exact absurd rfl h
  | cons b bytes =>
    rw [splitLine]
    split <;> simp

end Console

/-- Where `a` leaves an input as it is that is not empty, `b` does the same with the input `other`
and after the output `before`. What `a` leaves is always the end of the input. -/
def Action.Mirrors (other : List UInt8) (before : String) {α : Type} (a b : Action α) : Prop :=
  ∀ s, (a s).2.input <:+ s.input ∧
    ((a s).2.input = s.input → s.input ≠ [] →
      b (s.elsewhere other before) = ((a s).1, (a s).2.elsewhere other before))

namespace Action.Mirrors

variable {other : List UInt8} {before : String} {α β : Type}

/-- A step that leaves every input alone has to be the same elsewhere. -/
theorem of_eq {a : Action α} (hinput : ∀ s, (a s).2.input = s.input)
    (h : ∀ s, a (s.elsewhere other before) = ((a s).1, (a s).2.elsewhere other before)) :
    Mirrors other before a a :=
  fun s => ⟨hinput s ▸ List.suffix_rfl, fun _ _ => h s⟩

/-- A step that only reads has to find the same elsewhere. -/
theorem read {a : Action α} (hstore : ∀ s, (a s).2 = s)
    (h : ∀ s, (a (s.elsewhere other before)).1 = (a s).1) : Mirrors other before a a := by
  refine of_eq (fun s => by rw [hstore]) fun s => Prod.ext (h s) ?_
  rw [hstore, hstore]

theorem of_reads {a : Action α} (h : a.Reads) : Mirrors other before a a :=
  read h.store fun s => h.akin _ _ (s.akin_elsewhere other before)

theorem bind {a b : Action α} {f g : α → Action β} (ha : Mirrors other before a b)
    (hf : ∀ v, (∃ s, (a s).1 = .ok v) → Mirrors other before (f v) (g v)) :
    Mirrors other before (a >>= f) (b >>= g) := by
  intro s
  obtain ⟨hsuffix, hsame⟩ := ha s
  rcases h : a s with ⟨stop | v, s'⟩ <;> rw [h] at hsuffix hsame
  · rw [bind_error h]
    exact ⟨hsuffix, fun hinput hne => bind_error (hsame hinput hne)⟩
  · rw [bind_ok h]
    obtain ⟨hsuffix', hsame'⟩ := hf v ⟨s, by rw [h]⟩ s'
    refine ⟨hsuffix'.trans hsuffix, fun hinput hne => ?_⟩
    -- An input that is whole at the end was whole all the time.
    have hle : s.input.length ≤ s'.input.length := hinput ▸ hsuffix'.length_le
    have hmid : s'.input = s.input := hsuffix.eq_of_length_le hle
    rw [bind_ok (hsame hmid hne)]
    exact hsame' (hinput.trans hmid.symm) (hmid ▸ hne)

theorem within {a b : Action α} (e : Value) (h : Mirrors other before a b) :
    Mirrors other before (Action.within e a) (Action.within e b) := by
  intro s
  obtain ⟨hsuffix, hsame⟩ := h s
  rw [within_store]
  refine ⟨hsuffix, fun hinput hne => ?_⟩
  have hb := hsame hinput hne
  rcases ha : a s with ⟨stop | v, s'⟩ <;> rw [ha] at hb
  · rw [within_error ha, within_error hb, (s'.akin_elsewhere other before).text]
  · rw [within_ok ha, within_ok hb]

/-- A line that is taken from an input that is not empty leaves less of it. -/
theorem takeLine : Mirrors other before Console.takeLine Console.takeLine := by
  intro s
  have happend := Console.splitLine_append s.input
  rw [Console.takeLine_store]
  refine ⟨⟨_, happend⟩, fun hinput hne => ?_⟩
  have hline := Console.splitLine_fst_ne_nil hne
  have hrest : (Console.splitLine s.input).2 = s.input := hinput
  rw [hrest] at happend
  exact absurd (by simpa using happend) hline

theorem of_basic {a : Action α} (h : a.Basic) : Mirrors other before a a := by
  induction h with
  | pure v => exact of_eq (fun _ => rfl) fun _ => rfl
  | fail e => exact of_eq (fun _ => rfl) fun _ => rfl
  | bind _ _ iha ihf => exact bind iha fun v _ => ihf v
  | @get _ f _ hakin ihf =>
    intro s
    have helsewhere : (get >>= f) (s.elsewhere other before) = f s (s.elsewhere other before) :=
      congrFun (hakin _ _ (s.akin_elsewhere other before)) _
    rw [helsewhere]
    exact ihf s s
  | @pushVector f hakin =>
    refine of_eq (fun _ => rfl) fun s => ?_
    have hitems := hakin _ _ (s.akin_elsewhere other before)
    simp only [Action.change, hitems]
    rfl
  | setItem id slot value => exact of_eq (fun _ => rfl) fun _ => rfl
  | takeLine => exact takeLine
  | @print f hakin =>
    refine of_eq (fun _ => rfl) fun s => ?_
    have htext := hakin _ _ (s.akin_elsewhere other before)
    have houtput : before ++ s.output ++ f (s.elsewhere other before) ++ "\n" =
        before ++ (s.output ++ f s ++ "\n") := by
      rw [htext, String.append_assoc, String.append_assoc, String.append_assoc]
    exact congrArg (fun output => (Except.ok (), { s with input := other, output })) houtput

theorem makeClosure (scope : FrameId) (params body : Value) :
    Mirrors other before (Action.makeClosure scope params body)
      (Action.makeClosure scope params body) := by
  rw [Action.makeClosure_eq]
  refine bind (of_reads (.parameters params)) fun names _ => ?_
  exact bind (of_eq (fun _ => rfl) fun _ => rfl) fun _ _ => of_eq (fun _ => rfl) fun _ => rfl

/-- On a machine without functions of the host every step of evaluation is the same elsewhere. -/
theorem congruence {m : Machine} (hhosts : m.hosts = #[]) (other : List UInt8) (before : String) :
    m.Congruence (Mirrors other before) := by
  refine ⟨fun hstep => ?_, bind, within⟩
  cases hstep with
  | read h => exact of_reads h
  | unfinished => exact of_eq (fun _ => rfl) fun _ => rfl
  | lookup scope name =>
    exact read (m.evalAtom_store scope (.symbol name)) fun s =>
      m.lookup_congr (m.find?_elsewhere s other before scope name)
  | run body args =>
    cases body with
    | primitive p => exact of_basic (p.run_basic args)
    | recur => exact of_eq (fun _ => rfl) fun _ => rfl
    | host slot =>
      have hrun : m.run (.host slot) args = pure .nil := by simp [Machine.run, hhosts]
      rw [hrun]
      exact of_eq (fun _ => rfl) fun _ => rfl
  | makeClosure scope params body => exact makeClosure scope params body
  | extend scope names values => exact of_eq (fun _ => rfl) fun _ => rfl
  | define frame name value =>
    refine of_eq (fun s => ?_) fun s => ?_
    · cases value <;> rfl
    · exact congrArg (fun t => (Except.ok (), t.bind frame name value))
        (s.nameValue_elsewhere other before name value)
  | checkCount id got e =>
    exact read (checkCount_store id got e) fun s =>
      checkCount_congr (s.closures_elsewhere other before) (s.akin_elsewhere other before).text
        id got e
  | closure? id => exact read (fun _ => rfl) fun _ => rfl
  | loopName? id closure =>
    exact read (fun _ => rfl) fun s =>
      congrArg Except.ok (m.loopName?_elsewhere s other before id closure)
  | bind frame name value => exact of_eq (fun _ => rfl) fun _ => rfl
  | rebind frame name value =>
    refine of_eq (fun _ => rfl) fun s => ?_
    have hframe := s.frameOf?_elsewhere other before name (s.chain frame)
    exact congrArg (fun f =>
      (Except.ok (), (s.elsewhere other before).bind (f.getD frame) name value)) hframe

end Action.Mirrors

namespace CommandLine

open Action

theorem putLine_basic (line : String) : Basic (putLine line) := .print fun _ _ _ => rfl

/-- What runs to its end and leaves its input unread does the same with another input and after
another output. -/
theorem evalEach_mirrors {i : Interpreter} (hhosts : i.machine.hosts = #[])
    (other : List UInt8) (before : String) (program : List Value) :
    Mirrors other before (evalEach i program) (evalEach i program) := by
  have hcongruence := Mirrors.congruence hhosts other before
  induction program with
  | nil => exact hcongruence.pure ()
  | cons e program ih =>
    refine Mirrors.bind (Mirrors.bind (hcongruence.evalAt maxCallDepth i.scope e) fun v _ => ?_)
      fun _ _ => ih
    cases v with
    | nil => exact hcongruence.pure ()
    | _ => exact Mirrors.of_basic (.bind (.text _) fun line => putLine_basic line)

end CommandLine

end Lisplet
