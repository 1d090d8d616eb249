import IncludeDeps.Program
import IncludeDeps.Proofs.Tree.Following

/-!
# The default command

A command line that names no subcommand asks for a Makefile.  So does the same command line
with the word `makefile` behind it, but for two reasons that this could fail: a switch at its
end could take the word for its value, or the word could stand behind a word `--`, where
there are no subcommands any more.

A switch that takes a value and has none makes the end of the command line an error
(`isWaiting_of_settle`).  And only the word `--` ends the switches: `Keeps` says what
no other word changes, step by step (`Grammar.keeps_of_readWord`) and for all words
(`Grammar.keeps_of_readWords`).  Hence what is accepted without a subcommand is read on with
one (`Grammar.readWords_concat`).
-/

namespace IncludeDeps.CommandLine

namespace Reading

variable {σ : Type} {reading middle later : Reading σ} {switch : Switch σ} {value : Option Word}
  {operand : Operand σ} {word : Word}

/-- Only switches that take a value are pending. -/
def AwaitsValues (reading : Reading σ) : Prop :=
  ∀ switch value, reading.pending = some (.switch switch value) →
    ∃ set, switch.effect = .value set

/-- What reading on from one state to another leaves as it was. -/
structure Keeps (reading later : Reading σ) : Prop where
  trailing : later.trailing = reading.trailing
  awaits : reading.AwaitsValues → later.AwaitsValues

theorem Keeps.refl (reading : Reading σ) : reading.Keeps reading :=
  ⟨rfl, id⟩

theorem Keeps.trans (hfirst : reading.Keeps middle) (hsecond : middle.Keeps later) :
    reading.Keeps later :=
  ⟨hsecond.trailing.trans hfirst.trailing, hsecond.awaits ∘ hfirst.awaits⟩

/-- Nothing is pending, or nothing that is pending is a switch. -/
theorem Keeps.of_pending (htrailing : later.trailing = reading.trailing)
    (hpending : ∀ switch value, later.pending ≠ some (.switch switch value)) :
    reading.Keeps later :=
  ⟨htrailing, fun _ switch value h => absurd h (hpending switch value)⟩

/-! ## Steps -/

theorem eq_of_mark (h : reading.mark switch = .ok later) :
    later.trailing = reading.trailing ∧ later.pending = reading.pending := by
  unfold mark at h
  split at h
  · cases h
  · obtain rfl := Except.ok.inj h
    exact ⟨rfl, rfl⟩

theorem eq_of_apply (h : reading.apply switch value = .ok later) :
    later.trailing = reading.trailing ∧ later.pending = reading.pending := by
  unfold apply at h
  split at h
  · cases h
  · cases h
  · obtain ⟨marked, hmarked, hset⟩ := bind_eq_ok_iff.mp h
    obtain rfl := Except.ok.inj hset
    obtain ⟨htrailing, hpending⟩ := eq_of_mark hmarked
    exact ⟨htrailing, hpending⟩
  · cases h
  · obtain ⟨marked, hmarked, hset⟩ := bind_eq_ok_iff.mp h
    obtain ⟨settings, -, hsettings⟩ := bind_eq_ok_iff.mp hset
    obtain rfl := Except.ok.inj hsettings
    obtain ⟨htrailing, hpending⟩ := eq_of_mark hmarked
    exact ⟨htrailing, hpending⟩

theorem eq_of_settle (h : reading.settle = .ok later) :
    later.trailing = reading.trailing ∧ later.pending = none := by
  unfold settle at h
  split at h
  · next hpending =>
    obtain rfl := Except.ok.inj h
    exact ⟨rfl, hpending⟩
  · exact eq_of_apply h
  · obtain ⟨settings, -, hsettings⟩ := bind_eq_ok_iff.mp h
    obtain rfl := Except.ok.inj hsettings
    exact ⟨rfl, rfl⟩

/-- At the end no switch waits for its value. -/
theorem isWaiting_of_settle (hawaits : reading.AwaitsValues) (h : reading.settle = .ok later) :
    reading.isWaiting = false := by
  unfold isWaiting
  split
  · next switch hpending =>
    obtain ⟨set, hset⟩ := hawaits switch none hpending
    rw [settle, hpending] at h
    simp [apply, hset] at h
  · rfl

theorem keeps_of_react (h : reading.react switch value = .ok later) : reading.Keeps later := by
  obtain ⟨settled, hsettled, happly⟩ := bind_eq_ok_iff.mp h
  obtain ⟨htrailing, hpending⟩ := eq_of_settle hsettled
  obtain ⟨htrailing', hpending'⟩ := eq_of_apply happly
  exact .of_pending (htrailing'.trans htrailing) fun _ _ => by simp [hpending', hpending]

theorem keeps_of_await {set : Word → σ → Except UsageError σ} (heffect : switch.effect = .value set)
    (h : reading.await switch = .ok later) : reading.Keeps later := by
  obtain ⟨settled, hsettled, hawait⟩ := bind_eq_ok_iff.mp h
  obtain rfl := Except.ok.inj hawait
  refine ⟨(eq_of_settle hsettled).1, fun _ other value hpending => ?_⟩
  obtain ⟨rfl, -⟩ := Pending.switch.inj (Option.some.inj hpending)
  exact ⟨set, heffect⟩

theorem keeps_supply (reading : Reading σ) (word : Word) : reading.Keeps (reading.supply word) := by
  unfold supply
  split
  · next switch hpending =>
    refine ⟨rfl, fun hawaits other value hother => ?_⟩
    obtain ⟨rfl, -⟩ := Pending.switch.inj (Option.some.inj hother)
    exact hawaits switch none hpending
  · exact .refl reading

theorem keeps_of_addOperand (h : reading.addOperand operand word = .ok later) :
    reading.Keeps later := by
  unfold addOperand at h
  split at h
  · obtain rfl := Except.ok.inj h
    exact .of_pending rfl fun _ _ => by simp
  · obtain ⟨settled, hsettled, hadd⟩ := bind_eq_ok_iff.mp h
    obtain rfl := Except.ok.inj hadd
    exact .of_pending (eq_of_settle hsettled).1 fun _ _ => by simp

end Reading

namespace Grammar

open Reading

variable {σ : Type} {grammar : Grammar σ} {reading later : Reading σ} {word : Word}
  {words more : List Word}

theorem keeps_of_readName (h : grammar.readName word reading = .ok later) :
    reading.Keeps later := by
  unfold readName at h
  dsimp only at h
  split at h
  · cases h
  · split at h
    · exact keeps_of_react h
    · next heffect _ => exact keeps_of_await heffect h
    · cases h
    · exact keeps_of_react h

theorem keeps_of_readLetters (h : grammar.readLetters word reading = .ok later) :
    reading.Keeps later := by
  induction word generalizing reading with
  | nil =>
      obtain rfl := Except.ok.inj h
      exact .refl reading
  | cons byte rest ih =>
      unfold readLetters at h
      split at h
      · cases h
      · split at h
        · next heffect =>
          split at h
          · exact keeps_of_await heffect h
          · exact keeps_of_react h
        · obtain ⟨middle, hmiddle, hrest⟩ := bind_eq_ok_iff.mp h
          exact (keeps_of_react hmiddle).trans (ih hrest)

theorem keeps_of_readOperand (h : grammar.readOperand word reading = .ok later) :
    reading.Keeps later := by
  unfold readOperand at h
  split at h
  · exact keeps_of_addOperand h
  · split at h
    · cases h
    · split at h <;> cases h

theorem keeps_of_readWord (hword : word ≠ [0x2D, 0x2D])
    (h : grammar.readWord reading word = .ok later) : reading.Keeps later := by
  unfold readWord at h
  split at h
  · exact keeps_of_readOperand h
  · split at h
    · exact absurd rfl hword
    · exact keeps_of_readName h
    · exact keeps_of_readLetters h
    · split at h
      · obtain rfl := Except.ok.inj h
        exact keeps_supply reading word
      · exact keeps_of_readOperand h

/-! ## Runs -/

/-- Without a subcommand among them, words are read one after the other. -/
theorem readWords_cons_eq_ok_iff {rest : List Word} :
    grammar.readWords (word :: rest) reading = .ok (later, none) ↔
      (if !reading.trailing && !reading.isWaiting then grammar.subcommand? word else none) = none ∧
        ∃ middle, grammar.readWord reading word = .ok middle ∧
          grammar.readWords rest middle = .ok (later, none) := by
  rw [readWords]
  split
  · next h =>
    rw [h]
    simp
  · next h =>
    rw [h]
    simp
  · next h =>
    rw [h, bind_eq_ok_iff]
    simp

theorem keeps_of_readWords (hwords : [0x2D, 0x2D] ∉ words)
    (h : grammar.readWords words reading = .ok (later, none)) : reading.Keeps later := by
  induction words generalizing reading with
  | nil =>
      obtain ⟨rfl, -⟩ := Prod.mk.inj (Except.ok.inj h)
      exact .refl reading
  | cons word rest ih =>
      rw [List.mem_cons, not_or] at hwords
      obtain ⟨-, middle, hmiddle, hrest⟩ := readWords_cons_eq_ok_iff.mp h
      exact (keeps_of_readWord (Ne.symm hwords.1) hmiddle).trans (ih hwords.2 hrest)

/-- What has been read without a subcommand is read on. -/
theorem readWords_append (h : grammar.readWords words reading = .ok (later, none))
    (more : List Word) :
    grammar.readWords (words ++ more) reading = grammar.readWords more later := by
  induction words generalizing reading with
  | nil =>
      obtain ⟨rfl, -⟩ := Prod.mk.inj (Except.ok.inj h)
      rfl
  | cons word rest ih =>
      obtain ⟨hnone, middle, hmiddle, hrest⟩ := readWords_cons_eq_ok_iff.mp h
      rw [List.cons_append, readWords, hnone, hmiddle]
      exact ih hrest

/-- What is accepted without a subcommand, and has no word that ends the switches, can be
followed by one. -/
theorem readWords_concat {settled : Reading σ} {name : String} (hwords : [0x2D, 0x2D] ∉ words)
    (hstart : reading.pending = none) (htrailing : reading.trailing = false)
    (h : grammar.readWords words reading = .ok (later, none)) (hsettle : later.settle = .ok settled)
    (hname : grammar.subcommand? word = some name) (hhelp : name ≠ "help") :
    grammar.readWords (words ++ [word]) reading = .ok (later, some (name, [])) := by
  have hkeeps := keeps_of_readWords hwords h
  have hawaits : later.AwaitsValues := hkeeps.awaits fun _ _ => by simp [hstart]
  rw [readWords_append h, readWords]
  simp only [hkeeps.trailing, htrailing, isWaiting_of_settle hawaits hsettle, Bool.not_false,
    Bool.and_self, if_true, hname]

end Grammar

end IncludeDeps.CommandLine

namespace IncludeDeps

open CommandLine

/-! ## Main result -/

namespace Settings

variable {words : List Word} {settings : Settings}

/-- A command line that asks for no command was read to its end. -/
theorem exists_reading_of_parse (hparse : parse words = .ok settings)
    (hcommand : settings.command = none) :
    ∃ later settled, topGrammar.readWords words { settings := {} } = .ok (later, none) ∧
      later.settle = .ok settled ∧ settings = settled.settings := by
  obtain ⟨⟨later, subcommand⟩, hread, hrest⟩ := bind_eq_ok_iff.mp hparse
  cases subcommand with
  | none =>
      obtain ⟨settled, hsettled, hsettings⟩ := bind_eq_ok_iff.mp hrest
      exact ⟨later, settled, hread, hsettled, (Except.ok.inj hsettings).symm⟩
  | some subcommand =>
      obtain ⟨command, -, hafter⟩ := bind_eq_ok_iff.mp hrest
      obtain ⟨settled, -, hsettings⟩ := bind_eq_ok_iff.mp hafter
      obtain rfl := Except.ok.inj hsettings
      cases hcommand

theorem parse_concat_makefile (hparse : parse words = .ok settings)
    (hcommand : settings.command = none) (hwords : [0x2D, 0x2D] ∉ words) :
    parse (words ++ [Text.bytes "makefile"]) = .ok settings.withDefaultCommand := by
  obtain ⟨later, settled, hread, hsettled, rfl⟩ := exists_reading_of_parse hparse hcommand
  have hconcat : topGrammar.readWords (words ++ [Text.bytes "makefile"]) { settings := {} } =
      .ok (later, some ("makefile", [])) :=
    Grammar.readWords_concat hwords rfl rfl hread hsettled (by decide) (by decide)
  have hdefault : parseCommand "makefile" [] = .ok (.makefile .implied) := by
    rw [← MakefileArguments.declared_eq_implied]
    rfl
  rw [parse, hconcat]
  simp only [bind, Except.bind, hdefault, hsettled, withDefaultCommand, commandOrDefault, hcommand,
    Option.getD_none]
  rfl

end Settings

/-- Whether the default command has been filled in makes no difference to what is done. -/
theorem Program.execute_of_parse {words : List Word} {settings : Settings}
    (hparse : Settings.parse words = .ok settings) (storage : Storage) (tree : Tree)
    (workingDirectory : Location) :
    execute words storage tree workingDirectory =
      .ok (finish settings (settings.run storage tree workingDirectory)) := by
  rw [execute, hparse]
  rfl

/-- **The default command is to make a Makefile.**  A command line that is accepted, names no
command and has no word `--` asks for the same as with the word `makefile` behind it, and it
is carried out alike in every tree, whether or not the default has been filled in. -/
theorem makefile_is_default (words : List Word) (settings : Settings)
    (hparse : Settings.parse words = .ok settings) (hcommand : settings.command = none)
    (hwords : Text.bytes "--" ∉ words) :
    Settings.parse (words ++ [Text.bytes "makefile"]) = .ok settings.withDefaultCommand ∧
      ∀ storage tree workingDirectory,
        Program.execute (words ++ [Text.bytes "makefile"]) storage tree workingDirectory =
            Program.execute words storage tree workingDirectory ∧
          Program.execute words storage tree workingDirectory =
            .ok (Program.finish settings (settings.run storage tree workingDirectory)) := by
  have hdashes : Text.bytes "--" = [0x2D, 0x2D] := by decide
  have hexplicit := Settings.parse_concat_makefile hparse hcommand (hdashes ▸ hwords)
  refine ⟨hexplicit, fun storage tree workingDirectory => ?_⟩
  have himplied := Program.execute_of_parse hparse storage tree workingDirectory
  refine ⟨?_, himplied⟩
  rw [himplied]
  exact Program.execute_of_parse hexplicit storage tree workingDirectory

/-- Values that look like a subcommand or like the word that ends the switches do not count as
such. -/
theorem makefile_is_default_disguised :
    Settings.parse (["-vC", "makefile", "--extension", "graph", "--extension=--"].map Text.bytes) =
        .ok { directory := some (Text.bytes "makefile"), verbose := true,
              extensions := ["graph", "--"] } ∧
      Settings.parse (["-vC", "makefile", "--extension", "graph", "--extension=--",
          "makefile"].map Text.bytes) =
        .ok { directory := some (Text.bytes "makefile"), verbose := true,
              extensions := ["graph", "--"], command := some (.makefile .declared) } := by
  have hparse : Settings.parse
      (["-vC", "makefile", "--extension", "graph", "--extension=--"].map Text.bytes) =
        .ok { directory := some (Text.bytes "makefile"), verbose := true,
              extensions := ["graph", "--"] } := by
    decide +kernel
  exact ⟨hparse, (makefile_is_default _ _ hparse rfl (by decide)).1⟩

end IncludeDeps
