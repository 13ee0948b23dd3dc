import Lisplet.Proofs.Prompt.Lines
import Lisplet.Proofs.Reading.Pieces

/-! A prompt whose input is a program. It evaluates the expressions of the program once each and in
order, a few lines at a time, and prints what the program prints when it is run from a file. -/
namespace Lisplet.CommandLine

def waits (text : List Char) : Bool :=
  match Reader.readProgram true (String.ofList text) with
  | .ok _ => false
  | .error e => e.kind.isIncomplete

def skips (pending line : List Char) : Bool := pending.isEmpty && (Text.trim line).isEmpty

def pendingAfter (pending line : List Char) : List Char :=
  let text := pending ++ line ++ ['\n']
  if !skips pending line && waits text then text else []

/-- The texts that a prompt evaluates, given what waits for completion before the first line. -/
def chunks (pending : List Char) : List (List Char) → List (List Char)
  | [] => []
  | line :: lines =>
    let text := pending ++ line ++ ['\n']
    let later := chunks (pendingAfter pending line) lines
    if skips pending line || waits text then later else text :: later

def isCommand (line : List Char) : Bool :=
  [":help", ":env", ":quit", ":exit"].contains (String.ofList (Text.trim line))

/-- Whether no line is taken for a command, given what waits for completion before the first. -/
def commandFree (pending : List Char) : List (List Char) → Bool
  | [] => true
  | line :: lines =>
    !(pending.isEmpty && isCommand line) && commandFree (pendingAfter pending line) lines

theorem waits_of_ok {text : List Char} {vs : List Value}
    (h : Reader.values true text = .ok vs) : waits text = false := by
  rw [waits, Reader.readProgram, String.toList_ofList, h]

theorem waits_of_error {text : List Char} {issue : Reader.Issue}
    (h : Reader.values true text = .error issue) : waits text = issue.isIncomplete := by
  rw [waits, Reader.readProgram, String.toList_ofList, h]
  exact issue.isIncomplete_toError text

section

variable {pending line : List Char} (hskips : skips pending line = false)

theorem pendingAfter_of_skips (h : skips pending line = true) : pendingAfter pending line = [] := by
  simp [pendingAfter, h]

theorem chunks_of_skips (h : skips pending line = true) (ls : List (List Char)) :
    chunks pending (line :: ls) = chunks [] ls := by
  simp [chunks, h, pendingAfter_of_skips h]

include hskips

theorem pendingAfter_of_waits (h : waits (pending ++ line ++ ['\n']) = true) :
    pendingAfter pending line = pending ++ line ++ ['\n'] := by
  simp only [pendingAfter, hskips, h]
  rfl

theorem chunks_of_waits (h : waits (pending ++ line ++ ['\n']) = true) (ls : List (List Char)) :
    chunks pending (line :: ls) = chunks (pending ++ line ++ ['\n']) ls := by
  simp only [chunks, hskips, h, pendingAfter_of_waits hskips h]
  rfl

theorem pendingAfter_of_not_waits (h : waits (pending ++ line ++ ['\n']) = false) :
    pendingAfter pending line = [] := by
  simp only [pendingAfter, hskips, h]
  rfl

theorem chunks_of_not_waits (h : waits (pending ++ line ++ ['\n']) = false)
    (ls : List (List Char)) :
    chunks pending (line :: ls) = (pending ++ line ++ ['\n']) :: chunks [] ls := by
  simp only [chunks, hskips, h, pendingAfter_of_not_waits hskips h]
  rfl

end

/-- Texts that hold expressions, in order. -/
def Hold (texts : List (List Char)) (vs : List Value) : Prop :=
  ∃ programs, texts.mapM (fun text => Reader.readProgram true (String.ofList text)) = .ok programs ∧
    programs.flatten = vs

theorem Hold.cons {text : List Char} {texts : List (List Char)} {xs ys : List Value}
    (hx : Reader.readProgram true (String.ofList text) = .ok xs) (hy : Hold texts ys) :
    Hold (text :: texts) (xs ++ ys) := by
  obtain ⟨programs, hprograms, rfl⟩ := hy
  refine ⟨xs :: programs, ?_, rfl⟩
  rw [List.mapM_cons, hx, hprograms]
  rfl

theorem Hold.of_cons {text : List Char} {texts : List (List Char)} {vs : List Value}
    (h : Hold (text :: texts) vs) :
    ∃ xs ys, Reader.readProgram true (String.ofList text) = .ok xs ∧ Hold texts ys ∧
      vs = xs ++ ys := by
  obtain ⟨programs, hprograms, rfl⟩ := h
  rw [List.mapM_cons] at hprograms
  cases hx : Reader.readProgram true (String.ofList text) with
  | error e =>
    rw [hx] at hprograms
    cases hprograms
  | ok xs =>
    rw [hx] at hprograms
    cases hrest : texts.mapM fun text => Reader.readProgram true (String.ofList text) with
    | error e =>
      rw [hrest] at hprograms
      cases hprograms
    | ok later =>
      rw [hrest] at hprograms
      cases hprograms
      exact ⟨xs, later.flatten, rfl, ⟨later, hrest, rfl⟩, rfl⟩

theorem readProgram_of_values {text : List Char} {vs : List Value}
    (h : Reader.values true text = .ok vs) :
    Reader.readProgram true (String.ofList text) = .ok vs :=
  Reader.readProgram_eq_ok_iff.mpr (by rwa [String.toList_ofList])

/-- What stands behind a complete program is read on its own. -/
theorem values_behind {front rest : List Char} {xs vs : List Value}
    (h : Reader.values true (front ++ '\n' :: rest) = .ok vs)
    (hfront : Reader.values true (front ++ ['\n']) = .ok xs) :
    ∃ ys, Reader.values true rest = .ok ys ∧ vs = xs ++ ys := by
  obtain ⟨k, happend⟩ := Reader.values_append hfront
  rw [happend rest] at h
  cases hrest : Reader.values true rest with
  | error issue =>
    rw [hrest] at h
    cases h
  | ok ys =>
    rw [hrest] at h
    cases h
    exact ⟨ys, rfl, rfl⟩

/-- One line: it is skipped, or waits with what stands before it, or completes a text. -/
theorem chunks_cons {pending line rest : List Char} {ls : List (List Char)} {vs : List Value}
    (h : Reader.values true (pending ++ line ++ '\n' :: rest) = .ok vs)
    (later : ∀ {pending vs}, Reader.values true (pending ++ rest) = .ok vs →
      (pending = [] ∨ waits pending = true) → Hold (chunks pending ls) vs) :
    Hold (chunks pending (line :: ls)) vs := by
  cases hskips : skips pending line with
  | true =>
    rw [chunks_of_skips hskips]
    simp only [skips, Bool.and_eq_true, List.isEmpty_iff] at hskips
    obtain ⟨rfl, htrim⟩ := hskips
    have hblank : ∀ c ∈ line ++ ['\n'], Text.isBlank c = true := by
      intro c hc
      rcases List.mem_append.mp hc with hc | hc
      · exact Text.isBlank_of_trim_eq_nil htrim c hc
      · rw [List.mem_singleton.mp hc]
        rfl
    have hnothing : Reader.values true (line ++ ['\n']) = .ok [] :=
      @Reader.values_blank true (line ++ ['\n']) rest vs hblank (by simpa using h)
    obtain ⟨ys, hrest, rfl⟩ := values_behind h hnothing
    exact @later [] _ hrest (.inl rfl)
  | false =>
    cases hwaits : waits (pending ++ line ++ ['\n']) with
    | true =>
      rw [chunks_of_waits hskips hwaits]
      exact later (by simpa using h) (.inr hwaits)
    | false =>
      rw [chunks_of_not_waits hskips hwaits]
      rcases Reader.values_of_append h with ⟨xs, hxs⟩ | ⟨issue, hissue, hincomplete⟩
      · obtain ⟨ys, hrest, rfl⟩ := values_behind h hxs
        exact Hold.cons (readProgram_of_values hxs) (@later [] ys hrest (.inl rfl))
      · rw [waits_of_error hissue, hincomplete] at hwaits
        cases hwaits

/-- The texts that a prompt evaluates hold the expressions of the whole, in order. -/
theorem chunks_hold {text : List Char} {ls : List (List Char)} (h : Text.Lined text ls)
    {pending : List Char} {vs : List Value}
    (hvalues : Reader.values true (pending ++ text) = .ok vs)
    (hpending : pending = [] ∨ waits pending = true) : Hold (chunks pending ls) vs := by
  have hnil {pending : List Char} {vs : List Value}
      (hvalues : Reader.values true (pending ++ []) = .ok vs)
      (hpending : pending = [] ∨ waits pending = true) : Hold (chunks pending []) vs := by
    rw [List.append_nil] at hvalues
    rcases hpending with rfl | hwaits
    · cases hvalues
      exact ⟨[], rfl, rfl⟩
    · rw [waits_of_ok hvalues] at hwaits
      cases hwaits
  induction h generalizing pending vs with
  | nil => exact hnil hvalues hpending
  | last hne h => exact chunks_cons (Reader.values_newline hvalues) hnil
  | cons h hrest ih => exact chunks_cons (by simpa using hvalues) ih

theorem respond_eq {pending line : List Char} (i : Interpreter)
    (h : (pending.isEmpty && isCommand line) = false) :
    respond i pending line =
      if skips pending line then .next [] i else submit i (pending ++ line ++ ['\n']) := by
  unfold respond skips
  cases hempty : pending.isEmpty with
  | false => rfl
  | true =>
    obtain rfl := List.isEmpty_iff.mp hempty
    rw [hempty, Bool.true_and] at h
    unfold isCommand at h
    simp only [List.contains_cons, List.contains_nil, Bool.or_eq_false_iff,
      beq_eq_false_iff_ne] at h
    obtain ⟨hhelp, henv, hquit, hexit, -⟩ := h
    simp only [if_true, Bool.true_and]
    split
    · rename_i hline
      have htrim : Text.trim line = [] := by simpa using congrArg String.toList hline
      rw [htrim]
      rfl
    · contradiction
    · contradiction
    · contradiction
    · contradiction
    · rename_i hline _ _ _ _
      have htrim : (Text.trim line).isEmpty = false := by
        rw [List.isEmpty_eq_false_iff]
        rintro htrim
        exact hline (by rw [htrim])
      rw [htrim]
      rfl

theorem submit_of_waits {text : List Char} (i : Interpreter) (h : waits text = true) :
    submit i text = .next text i := by
  unfold waits at h
  unfold submit
  split at h
  · cases h
  · rename_i e he
    rw [he]
    simp [h]

theorem submit_of_ok {text : List Char} {program : List Value} (i : Interpreter) {t : Store}
    (h : Reader.readProgram true (String.ofList text) = .ok program)
    (heval : evalEach i program i.store = (.ok (), t)) :
    submit i text = .next [] { i with store := t } := by
  rw [submit, h]
  simp [Interpreter.perform, heval]

/-- Expressions that run through do so in two parts. -/
theorem evalEach_of_append {i : Interpreter} {xs ys : List Value} {s t : Store}
    (h : evalEach i (xs ++ ys) s = (.ok (), t)) :
    ∃ s', evalEach i xs s = (.ok (), s') ∧ evalEach i ys s' = (.ok (), t) := by
  have happend : evalEach i (xs ++ ys) = evalEach i xs >>= fun _ => evalEach i ys := by
    simp only [evalEach, List.forM_eq_forM, List.forM_append]
  rw [happend] at h
  rcases hx : evalEach i xs s with ⟨stop | _, s'⟩
  · rw [Action.bind_error hx] at h
    cases h
  · rw [Action.bind_ok hx] at h
    exact ⟨s', rfl, h⟩

/-- One line is taken from the input and answered. -/
theorem converse_line {text line : List Char} {ls : List (List Char)}
    (h : Text.Lined text (line :: ls)) (hreturn : '\r' ∉ text) (hback : '\x08' ∉ text) :
    ∃ rest, Text.Lined rest ls ∧ '\r' ∉ rest ∧ '\x08' ∉ rest ∧
      ∀ (pending : List Char) (i : Interpreter) (s : Store) (before : String) (fuel : Nat),
        converse pending { i with store := s.elsewhere (Text.encode text) before } (fuel + 1) =
          match respond { i with store := s.elsewhere (Text.encode rest) before } pending line with
          | .next pending i => converse pending i fuel
          | .stop i status => ⟨i.store.output, "", status⟩ := by
  obtain ⟨whole, rest, rfl, hrest, hne, hsplit, htyped⟩ := h.splitLine hreturn hback
  simp only [List.mem_append, not_or] at hreturn hback
  refine ⟨rest, hrest, hreturn.2, hback.2, fun pending i s before fuel => ?_⟩
  have hbytes : Text.encode whole ≠ [] := by
    intro hnil
    have hle := Text.length_le_encode whole
    rw [hnil] at hle
    exact hne (List.length_eq_zero_iff.mp (Nat.le_zero.mp hle))
  have hinput : Console.splitLine (s.elsewhere (Text.encode (whole ++ rest)) before).input =
      (Text.encode whole, Text.encode rest) := hsplit
  rw [converse, hinput]
  split
  · rename_i hnil
    exact absurd (Prod.mk.inj hnil).1 hbytes
  · rename_i heq
    cases heq
    dsimp only
    rw [Console.decode?_encode]
    dsimp only
    rw [String.toList_ofList, htyped]
    rfl

/-- A prompt whose input is a program that runs through and leaves its input unread prints what the
program prints, after `before`. -/
theorem converse_eq {i : Interpreter} (hhosts : i.machine.hosts = #[]) (before : String) {t : Store}
    (ls : List (List Char)) {text pending : List Char} {vs : List Value} {s : Store} {fuel : Nat}
    (h : Text.Lined text ls) (hreturn : '\r' ∉ text) (hback : '\x08' ∉ text)
    (hcommands : commandFree pending ls = true) (hold : Hold (chunks pending ls) vs)
    (heval : evalEach i vs s = (.ok (), t)) (hunread : t.input = s.input) (hne : s.input ≠ [])
    (hfuel : ls.length < fuel) :
    converse pending { i with store := s.elsewhere (Text.encode text) before } fuel =
      ⟨before ++ t.output ++ "Goodbye!\n", "", 0⟩ := by
  induction ls generalizing text pending vs s fuel with
  | nil =>
    obtain ⟨fuel, rfl⟩ : ∃ n, fuel = n + 1 := ⟨fuel - 1, by omega⟩
    obtain ⟨programs, hprograms, rfl⟩ := hold
    cases hprograms
    cases heval
    cases h
    rfl
  | cons line ls ih =>
    obtain ⟨fuel, rfl⟩ : ∃ n, fuel = n + 1 := ⟨fuel - 1, by omega⟩
    obtain ⟨rest, hrest, hreturn', hback', hturn⟩ := converse_line h hreturn hback
    have hfuel' : ls.length < fuel := by simpa using hfuel
    simp only [commandFree, Bool.and_eq_true, Bool.not_eq_true'] at hcommands
    obtain ⟨hcommand, hcommands⟩ := hcommands
    rw [hturn, respond_eq _ hcommand]
    cases hskips : skips pending line with
    | true =>
      rw [chunks_of_skips hskips] at hold
      rw [pendingAfter_of_skips hskips] at hcommands
      exact ih hrest hreturn' hback' hcommands hold heval hunread hne hfuel'
    | false =>
      rw [if_neg (by simp)]
      cases hwaits : waits (pending ++ line ++ ['\n']) with
      | true =>
        rw [chunks_of_waits hskips hwaits] at hold
        rw [pendingAfter_of_waits hskips hwaits] at hcommands
        rw [submit_of_waits _ hwaits]
        exact ih hrest hreturn' hback' hcommands hold heval hunread hne hfuel'
      | false =>
        rw [chunks_of_not_waits hskips hwaits] at hold
        rw [pendingAfter_of_not_waits hskips hwaits] at hcommands
        obtain ⟨xs, ys, hxs, hys, rfl⟩ := hold.of_cons
        obtain ⟨s', heval', heval''⟩ := evalEach_of_append heval
        -- Neither part has read anything, so the first is the same at the prompt.
        have hfirst := evalEach_mirrors hhosts (Text.encode rest) before xs s
        have hsecond := evalEach_mirrors hhosts (Text.encode rest) before ys s'
        rw [heval'] at hfirst
        rw [heval''] at hsecond
        have hle : s.input.length ≤ s'.input.length := hunread ▸ hsecond.1.length_le
        have hmid : s'.input = s.input := hfirst.1.eq_of_length_le hle
        have hprompt := hfirst.2 hmid hne
        rw [submit_of_ok _ hxs hprompt]
        exact ih hrest hreturn' hback' hcommands hys heval'' (hunread.trans hmid.symm)
          (hmid ▸ hne) hfuel'

/-- Whether the text of a file is run to its end, without a request to exit, and leaves the input
unread. -/
def runsThrough (source : String) (input : List UInt8) : Bool :=
  match Reader.readProgram true source with
  | .error _ => false
  | .ok program =>
    match evalEach (.standard input) program (Interpreter.standard input).store with
    | (.ok (), t) => t.input = input
    | (.error _, _) => false

theorem exists_of_runsThrough {source : String} {input : List UInt8}
    (h : runsThrough source input = true) :
    ∃ program t, Reader.readProgram true source = .ok program ∧
      evalEach (.standard input) program (Interpreter.standard input).store = (.ok (), t) ∧
      t.input = input := by
  unfold runsThrough at h
  split at h
  · cases h
  · rename_i program hprogram
    split at h
    · rename_i t heval
      exact ⟨program, t, hprogram, heval, of_decide_eq_true h⟩
    · cases h

/-- Running a file that leaves its input unread prints the same with every input. -/
theorem run_program_eq {source : String} {input : List UInt8} {program : List Value} {t : Store}
    (hprogram : Reader.readProgram true source = .ok program)
    (heval : evalEach (.standard input) program (Interpreter.standard input).store = (.ok (), t))
    (hunread : t.input = input) (hne : input ≠ []) (other : List UInt8) :
    run (.program source) other = ⟨t.output, "", 0⟩ := by
  have hmirrors := (evalEach_mirrors (i := .standard input) rfl other "" program
    (Interpreter.standard input).store).2
  rw [heval] at hmirrors
  have helsewhere : evalEach (.standard other) program (Interpreter.standard other).store =
      (.ok (), t.elsewhere other "") := hmirrors hunread hne
  simp [run, runProgram, hprogram, Interpreter.perform, helsewhere, Store.elsewhere]

/-- A prompt and a file. Let a program without carriage returns and backspaces, of which no line is
taken for a command, be run from a file to its end and leave its input unread. The prompt, given the
program as its input, prints what the file prints, between its banner and its farewell; for the
texts that it evaluates hold the expressions of the program, once each and in order. -/
theorem prompt_agrees_with_file (source : String) (input : List UInt8)
    (hreturn : '\r' ∉ source.toList) (hback : '\x08' ∉ source.toList)
    (hcommands : commandFree [] (Text.lines source.toList) = true) (hne : input ≠ [])
    (hrun : runsThrough source input = true) :
    (∀ other, run .prompt source.toUTF8.data.toList =
      ⟨banner ++ (run (.program source) other).output ++ "Goodbye!\n", "", 0⟩) ∧
    ∃ programs, (chunks [] (Text.lines source.toList)).mapM
        (fun text => Reader.readProgram true (String.ofList text)) = .ok programs ∧
      Reader.readProgram true source = .ok programs.flatten := by
  obtain ⟨program, t, hprogram, heval, hunread⟩ := exists_of_runsThrough hrun
  have hlined := Text.lined_lines source.toList
  have hvalues := Reader.readProgram_eq_ok_iff.mp hprogram
  have hold := @chunks_hold _ _ hlined [] program hvalues (.inl rfl)
  refine ⟨fun other => ?_, ?_⟩
  · rw [run_program_eq hprogram heval hunread hne other, Text.encode_toList]
    have hfuel : (Text.lines source.toList).length < (Text.encode source.toList).length + 1 := by
      have hlines := hlined.length_le
      have hbytes := Text.length_le_encode source.toList
      omega
    have hconverse := converse_eq (i := .standard input) rfl banner _ hlined hreturn hback hcommands
      hold heval hunread hne hfuel
    have hstart : say (.standard (Text.encode source.toList)) banner =
        { Interpreter.standard input with
          store := (Interpreter.standard input).store.elsewhere (Text.encode source.toList)
            banner } := by
      simp [say, Store.elsewhere, Interpreter.standard, Interpreter.ofGlobals, Store.pushFrame,
        Store.empty]
    rw [run, ← hconverse, ← hstart]
  · obtain ⟨programs, hprograms, rfl⟩ := hold
    exact ⟨programs, hprograms, hprogram⟩

theorem prompt_agrees_with_file_square :
    let source := "(define (sq x)\n  (* x x)) ; square\n\n(print \"a\n:quit\")(sq\n12) \"é\""
    commandFree [] (Text.lines source.toList) = true ∧ runsThrough source [10] = true ∧
      (run .prompt source.toUTF8.data.toList =
        ⟨banner ++ (run (.program source) []).output ++ "Goodbye!\n", "", 0⟩ ∧
      (run (.program source) []).output = "a\n:quit\n144\n\"é\"\n") := by
  intro source
  have hcommands : commandFree [] (Text.lines source.toList) = true := by decide +kernel
  have hrun : runsThrough source [10] = true := by decide +kernel
  have hagrees := prompt_agrees_with_file source [10] (by decide +kernel) (by decide +kernel)
    hcommands (by simp) hrun
  exact ⟨hcommands, hrun, hagrees.1 [], by decide +kernel⟩

/-- A backspace takes back at the prompt what it follows, and not in a file. -/
theorem prompt_takes_back :
    ¬ ∀ (source : String) (input : List UInt8), '\r' ∉ source.toList →
      commandFree [] (Text.lines source.toList) = true → input ≠ [] →
      runsThrough source input = true →
      run .prompt source.toUTF8.data.toList =
        ⟨banner ++ (run (.program source) input).output ++ "Goodbye!\n", "", 0⟩ := by
  intro h
  have hsame := h "\"a\x08b\"\n" [10] (by decide +kernel) (by decide +kernel) (by simp)
    (by decide +kernel)
  have hdiffer : (run .prompt "\"a\x08b\"\n".toUTF8.data.toList).output ≠
      banner ++ (run (.program "\"a\x08b\"\n") [10]).output ++ "Goodbye!\n" := by
    decide +kernel
  exact hdiffer (congrArg Transcript.output hsame)

end Lisplet.CommandLine
