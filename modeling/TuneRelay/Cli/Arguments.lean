/-!
# Command lines

Arguments are read from the left. Options may stand before a command or after it, words are the
command and its paths, and everything after a bare double dash is a path.
-/
namespace TuneRelay.Cli

inductive Verb | compile | sanitize | inspect | render
  deriving DecidableEq, Repr

namespace Verb

def ofName? : String → Option Verb
  | "compile" => some compile
  | "sanitize" => some sanitize
  | "inspect" => some inspect
  | "render" => some render
  | _ => none

def paths : Verb → Nat
  | compile | render => 2
  | sanitize | inspect => 1

end Verb

inductive Command
  | compile (input output : String)
  | sanitize (input : String)
  | inspect (input : String)
  | render (input output : String) (realtime : Bool)
  deriving DecidableEq, Repr

/-- A command and the configuration file it asks for. -/
structure Invocation where
  config : Option String
  command : Command
  deriving DecidableEq, Repr

inductive Stop | help | usage
  deriving DecidableEq, Repr

/-- The options and paths seen so far; the newest path comes first. -/
structure Seen where
  verb : Option Verb := none
  outerConfig : Option String := none
  config : Option String := none
  realtime : Bool := false
  paths : List String := []

namespace Seen

/-- An option may be given once before the command and once after it, never with an empty value. -/
def setConfig (s : Seen) (value : String) : Except Stop Seen :=
  if s.config.isSome || value.isEmpty then .error .usage else .ok { s with config := some value }

def setRealtime (s : Seen) : Except Stop Seen :=
  if s.verb = some .render && !s.realtime then .ok { s with realtime := true } else .error .usage

def addPath (s : Seen) (path : String) : Except Stop Seen :=
  match s.verb with
  | none => .error .usage
  | some verb =>
    if path.isEmpty || verb.paths ≤ s.paths.length then .error .usage
    else .ok { s with paths := path :: s.paths }

/-- What an option after the command sets counts more than what one before it sets. -/
def finish (s : Seen) : Except Stop Invocation :=
  let config := s.config <|> s.outerConfig
  match s.verb, s.paths with
  | some .compile, [output, input] => .ok ⟨config, .compile input output⟩
  | some .sanitize, [input] => .ok ⟨config, .sanitize input⟩
  | some .inspect, [input] => .ok ⟨config, .inspect input⟩
  | some .render, [output, input] => .ok ⟨config, .render input output s.realtime⟩
  | _, _ => .error .usage

end Seen

inductive Token
  | help
  | config (value : Option String)
  | realtime
  | separator
  | unknown
  | word (text : String)

def configFlag : List Char := "--config=".toList

/-- Reads an argument by itself. A word is a lone dash or does not start with one. -/
def Token.ofArgument (argument : String) : Token :=
  match argument.toList with
  | ['-'] => .word argument
  | ['-', '-'] => .separator
  | '-' :: '-' :: _ =>
    if argument == "--help" then .help
    else if argument == "--config" then .config none
    else if argument == "--realtime" then .realtime
    else if argument.toList.take configFlag.length = configFlag then
      .config (some (String.ofList (argument.toList.drop configFlag.length)))
    else .unknown
  | '-' :: 'h' :: _ => .help
  | ['-', 'c'] => .config none
  | '-' :: 'c' :: '=' :: value => .config (some (String.ofList value))
  | '-' :: 'c' :: value => .config (some (String.ofList value))
  | '-' :: _ => .unknown
  | _ => .word argument

/-- The command `help` takes at most the name of one command, which may be its own. -/
def helpStop : List String → Stop
  | [] => .help
  | [name] => if name == "help" || (Verb.ofName? name).isSome then .help else .usage
  | _ => .usage

/-- Reads arguments from the left; the first that asks for help or makes no sense decides. -/
def parseFrom (s : Seen) : List String → Except Stop Invocation
  | [] => s.finish
  | argument :: rest =>
    match Token.ofArgument argument with
    | .help => .error .help
    | .unknown => .error .usage
    | .realtime => s.setRealtime.bind (parseFrom · rest)
    | .config (some value) => (s.setConfig value).bind (parseFrom · rest)
    | .config none =>
      match rest with
      | [] => .error .usage
      | next :: others =>
        match Token.ofArgument next with
        | .word value => (s.setConfig value).bind (parseFrom · others)
        | _ => .error .usage
    | .separator => (rest.foldlM Seen.addPath s).bind Seen.finish
    | .word text =>
      if s.verb.isSome then (s.addPath text).bind (parseFrom · rest)
      else if text == "help" then .error (helpStop rest)
      else match Verb.ofName? text with
        | some verb => parseFrom { verb := some verb, outerConfig := s.config } rest
        | none => .error .usage

def parse (arguments : List String) : Except Stop Invocation := parseFrom {} arguments

end TuneRelay.Cli
