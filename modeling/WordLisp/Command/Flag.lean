import WordLisp.Text.Quoted

/-!
# Options of a command

Arguments that start with a dash are options: `-name`, `-name=value` or `-name value`, with one dash
or two. A switch takes a value only after `=`. Options end before the first argument that is none,
before a lone dash, and after `--`. They take effect in order, and the first that is wrong ends the
command.
-/

namespace WordLisp.Command

/-- Whether an option needs a value. -/
inductive FlagKind where
  | switch
  | valued
  deriving DecidableEq

/-- The options of a command whose settings have type `σ`. -/
structure Flags (σ : Type) where
  /-- The kind of the option of a name, if there is one. -/
  kind? : String → Option FlagKind
  /-- Give an option a value, or say why it is refused. -/
  set : String → String → σ → Except String σ

/-- Why options were not taken. -/
inductive FlagError where
  /-- Help was asked for. -/
  | help
  /-- An option is wrong. -/
  | wrong (message : String)

/-- An argument that is an option: its name, and its value if it is given in the same argument. -/
inductive FlagArgument where
  /-- Not an option. -/
  | none
  /-- The end of the options. -/
  | stop
  | malformed
  | flag (name : String) (value? : Option String)

/-- Take an argument apart. -/
def FlagArgument.ofString (argument : String) : FlagArgument :=
  let body? : Option (List Char) := match argument.toList with
    | ['-', '-'] => some []
    | '-' :: '-' :: body => some body
    | '-' :: c :: body => some (c :: body)
    | _ => Option.none
  match body? with
  | Option.none => .none
  | some [] => .stop
  | some (c :: body) =>
      if c = '-' ∨ c = '=' then
        .malformed
      else
        match body.span (· ≠ '=') with
        | (name, []) => .flag (String.ofList (c :: name)) Option.none
        | (name, _ :: value) =>
            .flag (String.ofList (c :: name)) (some (String.ofList value))

namespace Flags

/-- Give a switch a value. -/
def setSwitch {σ : Type} (flags : Flags σ) (name value : String) (settings : σ) :
    Except FlagError σ :=
  (flags.set name value settings).mapError fun reason ↦
    .wrong ("invalid boolean value " ++ Text.quoted (Text.Rune.ofString value) ++ " for -" ++
      name ++ ": " ++ reason)

/-- Give an option a value. -/
def setValue {σ : Type} (flags : Flags σ) (name value : String) (settings : σ) :
    Except FlagError σ :=
  (flags.set name value settings).mapError fun reason ↦
    .wrong ("invalid value " ++ Text.quoted (Text.Rune.ofString value) ++ " for flag -" ++ name ++
      ": " ++ reason)

/-- Take the options at the start of the arguments. The arguments behind them come back. -/
def parse {σ : Type} (flags : Flags σ) (settings : σ) :
    List String → Except FlagError (σ × List String)
  | [] => .ok (settings, [])
  | argument :: rest =>
      match FlagArgument.ofString argument with
      | .none => .ok (settings, argument :: rest)
      | .stop => .ok (settings, rest)
      | .malformed => .error (.wrong ("bad flag syntax: " ++ argument))
      | .flag name value? =>
          match flags.kind? name, value?, rest with
          | Option.none, _, _ =>
              if name = "help" ∨ name = "h" then .error .help
              else .error (.wrong ("flag provided but not defined: -" ++ name))
          | some .switch, value?, rest => do
              let settings ← flags.setSwitch name (value?.getD "true") settings
              flags.parse settings rest
          | some .valued, some value, rest => do
              let settings ← flags.setValue name value settings
              flags.parse settings rest
          | some .valued, Option.none, value :: rest => do
              let settings ← flags.setValue name value settings
              flags.parse settings rest
          | some .valued, Option.none, [] =>
              .error (.wrong ("flag needs an argument: -" ++ name))

end Flags

end WordLisp.Command
