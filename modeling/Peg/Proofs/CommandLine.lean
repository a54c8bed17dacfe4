import Peg.Cli.Outcome
import Peg.Proofs.Demos
import Peg.Proofs.Encoding

/-! # What the program decides

Of a text only the first line counts. The exit code says whether the demo matches at its
beginning, and what is printed is read off that one evaluation, which always ends.
-/
namespace Peg.Cli

open Demo (Language)

/-- The text before the first line feed, without a carriage return directly before it. -/
inductive FirstLine : String → String → Prop
  | whole {line : String} (h : '\n' ∉ line.toList) : FirstLine line line
  | feed {line : String} (rest : String) (h : '\n' ∉ line.toList)
      (hreturn : line.toList.getLast? ≠ some '\r') : FirstLine (line ++ "\n" ++ rest) line
  | returnFeed {line : String} (rest : String) (h : '\n' ∉ line.toList) :
      FirstLine (line ++ "\r\n" ++ rest) line

/-- Every text has a first line. -/
theorem exists_firstLine (text : String) : ∃ line, FirstLine text line := by
  by_cases h : '\n' ∈ text.toList
  · obtain ⟨cs, rest, htext, hcs⟩ := List.eq_append_cons_of_mem h
    by_cases hreturn : cs.getLast? = some '\r'
    · obtain ⟨front, rfl⟩ := List.getLast?_eq_some_iff.mp hreturn
      have hsplit : text = String.ofList front ++ "\r\n" ++ String.ofList rest := by
        rw [← String.toList_inj, htext]
        simp
      rw [hsplit]
      refine ⟨_, .returnFeed _ ?_⟩
      simpa using hcs
    · have hsplit : text = String.ofList cs ++ "\n" ++ String.ofList rest := by
        rw [← String.toList_inj, htext]
        simp
      rw [hsplit]
      refine ⟨_, .feed _ ?_ ?_⟩
      · simpa using hcs
      · simpa using hreturn
  · exact ⟨text, .whole h⟩

section Bytes

variable {bytes : Array UInt8} (h : 10 ∉ bytes)
include h

theorem findIdx?_of_notMem : bytes.findIdx? (· == 10) = none := by
  rw [Array.findIdx?_eq_none_iff]
  intro b hb
  exact beq_eq_false_iff_ne.mpr fun heq => h (heq ▸ hb)

theorem firstLine_of_notMem : firstLine bytes = bytes := by
  rw [firstLine, findIdx?_of_notMem h]

theorem firstLine_append (more : Array UInt8) : firstLine (bytes ++ #[10] ++ more) =
    if bytes.back? = some 13 then bytes.pop else bytes := by
  have hfind : (bytes ++ #[10] ++ more).findIdx? (· == 10) = some bytes.size := by
    rw [Array.findIdx?_append, Array.findIdx?_append, findIdx?_of_notMem h]
    simp
  rw [firstLine, hfind]
  simp

end Bytes

namespace FirstLine

variable {text line : String}

/-- The bytes of the first line are found among those of the text. -/
theorem firstLine_encode (h : FirstLine text line) :
    firstLine (Utf8.encode text) = Utf8.encode line := by
  have hfeed : ∀ {line : String}, '\n' ∉ line.toList → 10 ∉ Utf8.encode line :=
    fun hline hmem => hline (Utf8.mem_of_mem_encode (a := '\n') (by decide) hmem)
  have hlf : Utf8.encode "\n" = #[10] := by decide +kernel
  have hcrlf : Utf8.encode "\r\n" = #[13] ++ #[10] := by decide +kernel
  cases h with
  | whole h => exact firstLine_of_notMem (hfeed h)
  | feed rest h hreturn =>
    have hback : (Utf8.encode line).back? ≠ some 13 := fun hback =>
      hreturn (Utf8.getLast?_of_back?_encode (a := '\r') (by decide) hback)
    rw [Utf8.encode_append, Utf8.encode_append, hlf, firstLine_append (hfeed h), if_neg hback]
  | returnFeed rest h =>
    have hmem : 10 ∉ Utf8.encode line ++ #[13] := by simpa using hfeed h
    rw [Utf8.encode_append, Utf8.encode_append, hcrlf, ← Array.append_assoc, firstLine_append hmem]
    simp

/-- A text has only one first line. -/
theorem unique {line' : String} (h : FirstLine text line) (h' : FirstLine text line') :
    line = line' :=
  Utf8.encode_injective (h.firstLine_encode.symm.trans h'.firstLine_encode)

end FirstLine

section Printing

def shown (line : String) (m : Span) : String :=
  Utf8.decodeLossy ((Utf8.encode line).extract m.start m.stop)

/-- What is printed of an evaluation with a match: the span with its text, each capture on a
line of its own, and what was forwarded if that is asked for. -/
def report (o : Options) (line : String) (m : Span) (s : Store) : String :=
  "matched " ++ toString m.start ++ ".." ++ toString m.stop ++ ": " ++ shown line m ++ "\n" ++
    String.join (s.captures.toList.map fun k => shown line k ++ "\n") ++
    if o.forward then Utf8.decodeLossy (s.sinks.content 0) ++ "\n" else ""

variable {line : String} (hsize : (Utf8.encode line).size ≤ Span.bufferLimit)
include hsize

theorem text_of_within {m : Span} (h : m.Within 0 (Utf8.encode line).size) :
    (m.text ⟨Utf8.encode line, 0⟩).1.toOption.getD "" = shown line m := by
  obtain ⟨-, hle, hstop⟩ := h
  rw [Span.text_of_le hle (by omega)]
  rfl

theorem foldl_text {ks : List Span} (hks : ∀ k ∈ ks, k.Within 0 (Utf8.encode line).size)
    (front : String) :
    ks.foldl (fun acc k => acc ++ (k.text ⟨Utf8.encode line, 0⟩).1.toOption.getD "" ++ "\n") front =
      front ++ String.join (ks.map fun k => shown line k ++ "\n") := by
  induction ks generalizing front with
  | nil => simp
  | cons k ks ih =>
    rw [List.forall_mem_cons] at hks
    rw [List.foldl_cons, ih hks.2, text_of_within hsize hks.1, List.map_cons, String.join_cons,
      String.append_assoc, String.append_assoc, String.append_assoc]

/-- Nothing of what is printed of a match is missing on a line that one buffer can hold. -/
theorem matchText_eq {o : Options} {m : Span} {s : Store}
    (hm : m.Within 0 (Utf8.encode line).size)
    (hs : ∀ k ∈ s.captures, k.Within 0 (Utf8.encode line).size) :
    matchText o 0 (Utf8.encode line) m s = report o line m s := by
  have hks : ∀ k ∈ s.captures.toList, k.Within 0 (Utf8.encode line).size :=
    fun k hk => hs k (Array.mem_toList_iff.mp hk)
  have hlines := foldl_text hsize hks
  delta report
  rw [matchText, ← Array.foldl_toList, hlines]
  dsimp only
  rw [text_of_within hsize hm]
  cases o.forward <;> simp [String.append_assoc]

end Printing

namespace Options

def Switch.argument : Switch → String
  | forward => "--forward"
  | all => "--all"
  | explain => "--explain"

def arguments (o : Options) : List String :=
  (if o.forward then [Switch.forward.argument] else []) ++
    ((if o.all then [Switch.all.argument] else []) ++
    ((if o.explain then [Switch.explain.argument] else []) ++
    ((match o.demo with
      | some name => ["--demo=" ++ name]
      | none => []) ++
    match o.file with
      | some path => ["--", path]
      | none => [])))

variable {o o' : Options}

theorem read_of_further {arg : String} (rest : List String) (hne : arg ≠ "--")
    (h : o.readArgument arg = .further o') : o.read (arg :: rest) = o'.read rest := by
  rw [read.eq_def]
  split
  · rename_i heq
    cases heq
  · rename_i heq
    exact absurd (List.cons.inj heq).1 hne
  · rename_i heq
    cases heq
    rw [h]

theorem read_switch {s : Switch} (rest : List String) (h : o.turnOn s = some o') :
    o.read (s.argument :: rest) = o'.read rest := by
  refine read_of_further rest (by cases s <;> decide) ?_
  have hread : o.readArgument s.argument = .ofOption (o.turnOn s) := by
    cases s <;> simp [readArgument, Switch.argument, splitAtEquals, readLong, ofLongName?]
  rw [hread, h]
  rfl

theorem read_demo (rest : List String) {name : String} (h : o.chooseDemo name = some o') :
    o.read (("--demo=" ++ name) :: rest) = o'.read rest := by
  have hchars : ("--demo=" ++ name).toList = '-' :: '-' :: "demo=".toList ++ name.toList := by simp
  refine read_of_further rest (fun heq => ?_) ?_
  · rw [heq] at hchars
    simp at hchars
  · simp [readArgument, hchars, splitAtEquals, readLong, ofLongName?, h, Progress.ofOption]

/-- Every combination of options can be asked for. -/
theorem ofArguments_arguments (o : Options) : Request.ofArguments o.arguments = .start o := by
  obtain ⟨file, demo, forward, all, explain⟩ := o
  have hforward : ∀ rest, read {} ((if forward then [Switch.forward.argument] else []) ++ rest) =
      read { forward } rest := by
    cases forward
    · exact fun _ => rfl
    · exact fun rest => read_switch rest rfl
  have hall : ∀ rest, read { forward } ((if all then [Switch.all.argument] else []) ++ rest) =
      read { forward, all } rest := by
    cases all
    · exact fun _ => rfl
    · exact fun rest => read_switch rest rfl
  have hexplain : ∀ rest, read { forward, all }
      ((if explain then [Switch.explain.argument] else []) ++ rest) =
        read { forward, all, explain } rest := by
    cases explain
    · exact fun _ => rfl
    · exact fun rest => read_switch rest rfl
  rw [Request.ofArguments, arguments, hforward, hall, hexplain]
  cases demo with
  | none => cases file <;> rfl
  | some name =>
    have hdemo : ∀ rest, read { forward, all, explain } (("--demo=" ++ name) :: rest) =
        read { demo := some name, forward, all, explain } rest := fun rest => read_demo rest rfl
    cases file with
    | none => exact hdemo []
    | some path => exact hdemo ["--", path]

end Options

/-- The program is asked for a language that there is, and finds the text where the options say:
in the file that they name, or else on the standard input. -/
structure Asks (args : List String) (stdin : Array UInt8)
    (readFile : String → Except ReadError (Array UInt8)) (o : Options) (l : Language)
    (text : String) : Prop where
  arguments : Request.ofArguments args = .start o
  demo : Language.ofName? o.demoName = some l
  contents : (o.file = none ∧ stdin = Utf8.encode text) ∨
    ∃ path, o.file = some path ∧ readFile path = .ok (Utf8.encode text)

section Run

variable {args : List String} {stdin : Array UInt8}
variable {readFile : String → Except ReadError (Array UInt8)}
variable {o : Options} {l : Language} {text line : String}

def Options.demoOf (o : Options) (l : Language) : Demo :=
  if o.all then (Demo.build l 0 0).anchored else Demo.build l 0 0

theorem Asks.source_eq (h : Asks args stdin readFile o l text) :
    (source o stdin readFile).1 = .ok (Utf8.encode text) := by
  obtain ⟨hfile, htext⟩ | ⟨path, hfile, htext⟩ := h.contents
  · rw [source, hfile, htext]
  · rw [source, hfile]
    exact htext

/-- The rules of every demo are defined, so the check before the run lets it pass. -/
theorem Asks.run_eq (h : Asks args stdin readFile o l text) :
    run args stdin readFile = parseLine o (o.demoOf l) 0 (Utf8.encode text) := by
  rw [run, h.arguments]
  simp only [start, h.demo, Demo.check_build, h.source_eq, requireText, Utf8.isValid_encode,
    if_true]
  rfl

/-- A demo matches or misses, on every input. -/
theorem demoOf_decides (o : Options) (l : Language) (input : Array UInt8) :
    (∃ m t, (o.demoOf l).run input = some (.hit m, t)) ∨
      ∃ t, (o.demoOf l).run input = some (.miss, t) := by
  have hgrammar : (o.demoOf l).grammar = (Demo.build l 0 0).grammar := by
    unfold Options.demoOf
    split <;> rfl
  have hends := Demo.run_limit_isSome (σ := (o.demoOf l).setting input)
    (p := (o.demoOf l).start) (congrArg some hgrammar) (Store.keepsPosition rfl _) ⟨0, {}⟩
  obtain ⟨⟨v, t⟩, ht⟩ := Option.isSome_iff_exists.mp hends
  cases v with
  | hit m => exact .inl ⟨m, t, ht⟩
  | miss => exact .inr ⟨t, ht⟩
  | stop why => exact ((Store.run_kept rfl _ _ _ t ht).halted why rfl).elim

def explained (o : Options) (l : Language) : String :=
  if o.explain then explanation (o.demoOf l) else ""

/-- Matches of a demo begin at the beginning of the line and stay in it; with the anchor they
take all of it. -/
theorem hit_within {n : Nat} {m : Span} {t : State Store} {input : Array UInt8}
    (h : ((o.demoOf l).setting input).run n (o.demoOf l).start ⟨0, {}⟩ = some (.hit m, t)) :
    m.Within 0 input.size ∧ m.start = 0 ∧ (o.all = true → m = ⟨0, input.size⟩) ∧
      ∀ k ∈ t.ctx.captures, k.Within 0 input.size := by
  have hkept := Store.run_kept (σ := (o.demoOf l).setting input) rfl n (o.demoOf l).start _ _ h
  have hwithin : m.Within 0 input.size := hkept.within (Nat.le_refl _) (by simp [Demo.setting])
  obtain ⟨hstart, hpos, hstop⟩ := hkept.span m rfl
  refine ⟨hwithin, hstart, fun hall => ?_, hkept.good⟩
  have hend : input.size ≤ t.pos := by
    have hd : o.demoOf l = (Demo.build l 0 0).anchored := if_pos hall
    rw [hd] at h
    exact Setting.run_anchored_ensures n (Demo.build l 0 0).start _ _ _ h m rfl
  have hstop' : m.stop = input.size := Nat.le_antisymm hwithin.2.2 (hend.trans hpos)
  exact Span.mk.injEq _ _ _ _ ▸ ⟨hstart, hstop'⟩

/-- A match on the first line is printed behind the explanation, with exit code 0. -/
theorem Asks.run_of_hit (h : Asks args stdin readFile o l text) (hline : FirstLine text line)
    {m : Span} {t : State Store} (ht : (o.demoOf l).run (Utf8.encode line) = some (.hit m, t)) :
    run args stdin readFile =
      { code := 0, stdout := explained o l ++ matchText o 0 (Utf8.encode line) m t.ctx } := by
  rw [h.run_eq, parseLine, hline.firstLine_encode, ht]
  rfl

/-- A miss on the first line leaves only the explanation and a message, with exit code 1. -/
theorem Asks.run_of_miss (h : Asks args stdin readFile o l text) (hline : FirstLine text line)
    {t : State Store} (ht : (o.demoOf l).run (Utf8.encode line) = some (.miss, t)) :
    run args stdin readFile =
      { code := 1, stdout := explained o l
        stderr := some ("Failed to parse input with demo '" ++ o.demoName ++ "'.\n") } := by
  rw [h.run_eq, parseLine, hline.firstLine_encode, ht]
  rfl

/-- Only the first line of the text counts, and the exit code says whether the demo, with the
anchor behind it if the whole line has to match, matches at its beginning. What is printed of a
match is what that evaluation came to, on any line that one buffer can hold; without a match the
evaluation ends in a miss, and nothing is printed but the explanation. -/
theorem run_decides_first_line (h : Asks args stdin readFile o l text)
    (hline : FirstLine text line) :
    let σ := (o.demoOf l).setting (Utf8.encode line)
    let outcome := run args stdin readFile
    (outcome.code = 0 ↔ ∃ n m t, σ.run n (o.demoOf l).start ⟨0, {}⟩ = some (.hit m, t)) ∧
    (∀ n m t, σ.run n (o.demoOf l).start ⟨0, {}⟩ = some (.hit m, t) →
      outcome.stderr = some "" ∧ m.start = 0 ∧
      (o.all = true → m = ⟨0, (Utf8.encode line).size⟩) ∧
      ((Utf8.encode line).size ≤ Span.bufferLimit →
        outcome.stdout = explained o l ++ report o line m t.ctx)) ∧
    ((¬ ∃ n m t, σ.run n (o.demoOf l).start ⟨0, {}⟩ = some (.hit m, t)) →
      (∃ n t, σ.run n (o.demoOf l).start ⟨0, {}⟩ = some (.miss, t)) ∧
      outcome = { code := 1, stdout := explained o l,
                  stderr := some ("Failed to parse input with demo '" ++ o.demoName ++ "'.\n") }) ∧
    ∀ args' stdin' readFile' o' text', Asks args' stdin' readFile' o' l text' →
      { o' with file := o.file } = o → FirstLine text' line →
      run args' stdin' readFile' = outcome := by
  intro σ outcome
  have hrest : ∀ args' stdin' readFile' o' text', Asks args' stdin' readFile' o' l text' →
      { o' with file := o.file } = o → FirstLine text' line →
      run args' stdin' readFile' = outcome := by
    intro args' stdin' readFile' o' text' h' ho hline'
    have hparse : parseLine o' (o'.demoOf l) 0 (Utf8.encode text') =
        parseLine o (o.demoOf l) 0 (Utf8.encode text) := by
      rw [parseLine, parseLine, hline.firstLine_encode, hline'.firstLine_encode, ← ho]
      rfl
    rw [h'.run_eq, hparse]
    exact h.run_eq.symm
  rcases demoOf_decides o l (Utf8.encode line) with ⟨m, u, hu⟩ | ⟨u, hu⟩
  · have hout : outcome = _ := h.run_of_hit hline hu
    refine ⟨?_, ?_, fun hnone => absurd ⟨_, m, u, hu⟩ hnone, hrest⟩
    · rw [hout]
      exact iff_of_true rfl ⟨_, m, u, hu⟩
    · intro n k t ht
      obtain ⟨hwithin, hstart, hall, hcaptures⟩ := hit_within ht
      cases σ.run_unique ht hu
      rw [hout]
      refine ⟨rfl, hstart, hall, fun hsize => ?_⟩
      exact congrArg (explained o l ++ ·) (matchText_eq hsize hwithin hcaptures)
  · have hout : outcome = _ := h.run_of_miss hline hu
    have hnone : ¬ ∃ n m t, σ.run n (o.demoOf l).start ⟨0, {}⟩ = some (.hit m, t) := by
      rintro ⟨n, m, t, ht⟩
      cases σ.run_unique ht hu
    refine ⟨?_, fun n m t ht => absurd ⟨n, m, t, ht⟩ hnone, fun _ => ⟨⟨_, u, hu⟩, hout⟩, hrest⟩
    rw [hout]
    exact iff_of_false Nat.one_ne_zero hnone

end Run

/-- A signed number in a file, followed by a carriage return, a line feed and more text, and
groups on the standard input, whose demo is explained before they are looked for. -/
theorem number_and_groups_on_first_line :
    let o : Options :=
      { file := some "in.txt", demo := some "number", forward := true, all := true }
    let readFile := fun _ => Except.ok (Utf8.encode "-42\r\nx")
    let o' : Options := { demo := some "parens", explain := true }
    let stdin := Utf8.encode "(())1\n("
    let noFile := fun _ => Except.error .notFound
    (Asks ["--demo=number", "-af", "in.txt"] #[] readFile o .number "-42\r\nx" ∧
      FirstLine "-42\r\nx" "-42" ∧
      run ["--demo=number", "-af", "in.txt"] #[] readFile =
        { code := 0, stdout := "matched 0..3: -42\n-\n42\n42\n" }) ∧
    Asks ["--explain", "-d", "parens"] stdin noFile o' .parens "(())1\n(" ∧
      FirstLine "(())1\n(" "(())1" ∧
      run ["--explain", "-d", "parens"] stdin noFile =
        { code := 0
          stdout := "forward(<group> % 1)\n" ++ "  <group> := capt(\"(\" >> <groups> >> \")\")\n" ++
            "  <groups> := <group> % 0\n" ++ "matched 0..4: (())\n()\n(())\n" } := by
  intro o readFile o' stdin noFile
  constructor
  · have hasks : Asks ["--demo=number", "-af", "in.txt"] #[] readFile o .number "-42\r\nx" :=
      ⟨by decide +kernel, Language.ofName?_name .number, .inr ⟨"in.txt", rfl, rfl⟩⟩
    have hfeed : '\n' ∉ "-42".toList := by decide
    have hline : FirstLine "-42\r\nx" "-42" := .returnFeed "x" hfeed
    obtain ⟨hcode, hprinted, -⟩ := run_decides_first_line hasks hline
    have hrun : (((o.demoOf .number).setting (Utf8.encode "-42")).run 4 (o.demoOf .number).start
        ⟨0, {}⟩).map (fun r => (r.1, report o "-42" ⟨0, 3⟩ r.2.ctx)) =
        some (.hit ⟨0, 3⟩, "matched 0..3: -42\n-\n42\n42\n") := by decide +kernel
    obtain ⟨⟨v, t⟩, ht, heq⟩ := Option.map_eq_some_iff.mp hrun
    obtain ⟨rfl, hreport⟩ := Prod.mk.inj heq
    obtain ⟨hstderr, -, -, hstdout⟩ := hprinted 4 _ t ht
    have hout := hstdout (by decide +kernel)
    rw [hreport] at hout
    exact ⟨hasks, hline, Outcome.ext (hcode.mpr ⟨4, _, t, ht⟩) hout hstderr⟩
  · have hasks : Asks ["--explain", "-d", "parens"] stdin noFile o' .parens "(())1\n(" :=
      ⟨by decide +kernel, Language.ofName?_name .parens, .inl ⟨rfl, rfl⟩⟩
    have hfeed : '\n' ∉ "(())1".toList := by decide
    have hline : FirstLine "(())1\n(" "(())1" := .feed "(" hfeed (by decide)
    obtain ⟨hcode, hprinted, -⟩ := run_decides_first_line hasks hline
    have hrun : (((o'.demoOf .parens).setting (Utf8.encode "(())1")).run 9 (o'.demoOf .parens).start
        ⟨0, {}⟩).map (fun r => (r.1, report o' "(())1" ⟨0, 4⟩ r.2.ctx)) =
        some (.hit ⟨0, 4⟩, "matched 0..4: (())\n()\n(())\n") := by decide +kernel
    obtain ⟨⟨v, t⟩, ht, heq⟩ := Option.map_eq_some_iff.mp hrun
    obtain ⟨rfl, hreport⟩ := Prod.mk.inj heq
    obtain ⟨hstderr, -, -, hstdout⟩ := hprinted 9 _ t ht
    have hout := hstdout (by decide +kernel)
    have hexplained : explained o' .parens = "forward(<group> % 1)\n" ++
        "  <group> := capt(\"(\" >> <groups> >> \")\")\n" ++ "  <groups> := <group> % 0\n" := by
      decide +kernel
    rw [hreport, hexplained] at hout
    exact ⟨hasks, hline, Outcome.ext (hcode.mpr ⟨9, _, t, ht⟩) hout hstderr⟩

end Peg.Cli
