import WordLisp.Command.Flag
import WordLisp.Text.TitleCase
import WordLisp.Wrapper.Method

/-!
# Generated wrappers

For each builder method a function is generated that returns the method as a function of the case,
so that tables of tests can hold it. The generated file starts with the package, the name of the
source and, if it is known how, the command that generates it again.
-/

namespace WordLisp.Wrapper

open Text (Rune)

/-- What a file is generated with. -/
structure Settings where
  package : String := "main"
  /-- The type of the builder, without the ending `TestCase`. -/
  type : String := "vm"

/-- The options of the generator. -/
def Settings.flags : Command.Flags Settings where
  kind?
    | "package" | "type" => some .valued
    | _ => none
  set
    | "package", value, settings => .ok { settings with package := value }
    | _, value, settings => .ok { settings with type := value }

/-- The name of the type of the builder. -/
def Settings.caseType (settings : Settings) : String :=
  settings.type ++ "TestCase"

/-- The longest line of a source, in bytes. -/
def maxLine : Nat := 65535

/-- A text cut into lines without their line feeds, which the last line may lack. -/
def lines : List Rune → List (List Rune)
  | [] => []
  | rune :: rest =>
      if rune = .char '\n' then
        [] :: lines rest
      else
        match lines rest with
        | line :: more => (rune :: line) :: more
        | [] => [[rune]]

/-- A line without a carriage return at its end. -/
def dropReturn (line : List Rune) : List Rune :=
  if line.getLast? = some (.char '\r') then line.dropLast else line

/-- The number of bytes of a text. -/
def byteSize (text : List Rune) : Nat :=
  text.foldl (fun size rune ↦ size + rune.size) 0

/-- The builder methods of a source, unless a line is too long. -/
def methods? (caseType : String) (source : List Rune) : Option (List Method) :=
  let all := lines source
  if all.any (maxLine < byteSize ·) then none
  else some (all.filterMap fun line ↦ Method.ofLine? caseType (dropReturn line))

/-- The wrapper of a method. -/
def Settings.wrapper (settings : Settings) (method : Method) : String :=
  let caseType := settings.caseType
  "\nfunc " ++ method.kind ++ Text.titleCase settings.type ++ method.what ++
    "(" ++ Rune.toText method.parameters ++ ") func(" ++ caseType ++ ") " ++ caseType ++
    " \x7b\n" ++
    "\treturn func(tc " ++ caseType ++ ") " ++ caseType ++ " \x7b\n" ++
    "\t\treturn tc." ++ method.kind ++ method.what ++ "(" ++ method.arguments ++ ")\n" ++
    "\t\x7d\n\x7d\n"

/-- The generated file. With the names of source and destination it says how to generate it
again. -/
def Settings.file (settings : Settings) (sourceName : String) (names : List String)
    (methods : List Method) : String :=
  let again :=
    if names.length < 2 then ""
    else
      "\n//go:generate go run ../../scripts/gen_expects.go -package " ++ settings.package ++
        " -type " ++ settings.type ++ " -- " ++ " ".intercalate names ++ "\n"
  "package " ++ settings.package ++ "\n\n// @generated from " ++ sourceName ++ "\n" ++ again ++
    String.join (methods.map settings.wrapper)

/-- What the generator leaves: its exit code, and what it wrote to the standard output or to the
file that it was told to write. -/
structure Outcome where
  exitCode : Nat
  output : String := ""
  file? : Option (String × String) := none

/-- The generator as a function of its arguments, the files and the standard input. The first name
is the source and the second the file to be written. -/
def run (arguments : List String) (file? : String → Option (List Rune)) (input : List Rune) :
    Outcome :=
  match Settings.flags.parse {} arguments with
  | .error .help => { exitCode := 0 }
  | .error (.wrong _) => { exitCode := 2 }
  | .ok (settings, names) =>
      let source? := match names with
        | [] => some (input, "<stdin>")
        | name :: _ => (file? name).map (·, name)
      match source? with
      | none => { exitCode := 1 }
      | some (source, sourceName) =>
          let result :=
            (methods? settings.caseType source).map (settings.file sourceName names ·)
          let exitCode := if result.isSome then 0 else 1
          match names with
          | _ :: target :: _ => { exitCode, file? := some (target, result.getD "") }
          | _ => { exitCode, output := result.getD "" }

end WordLisp.Wrapper
