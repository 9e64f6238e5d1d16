import Kryndel.Syntax.Source
import Kryndel.Systems.Run
import Mathlib.Data.List.Nodup
import Mathlib.Data.String.Basic
import Mathlib.Logic.Function.Basic

/-!
# The language server

The server keeps the open documents. Whenever they change it analyses each of them, in the
order of their URIs, and publishes the first error of each analysis at the file it is in, or
an empty list at the document when there is none. The client keeps the last list it was sent
for each URI.

The analyses and the conversions between paths and URIs are those of a host, which may read
files; the order in which the source ranges over its table of documents is arbitrary.

## References

- `lsp/server.go`: `dispatch`, `open`, `change`, `validate`, `publishDiagnostic`
-/

namespace Kryndel.Lsp

open List

/-! ## Positions -/

/-- `Position`: lines and UTF-16 units, from zero. -/
structure Position where
  line : Nat
  character : Nat
deriving DecidableEq, Repr

/-- `Range` -/
structure Range where
  start : Position
  stop : Position
deriving DecidableEq, Repr

/-- Where a line starts, from zero, if the text has it. -/
def lineStart : Nat → List Char → Option Nat
  | 0, _ => some 0
  | n + 1, text =>
      match text.findIdx? (· == '\n') with
      | none => none
      | some next => (lineStart n (text.drop (next + 1))).map (· + (next + 1))

/-- `offsetFromLineColumn`, in characters. -/
def offsetFromLineColumn (text : List Char) (line column : Nat) : Nat :=
  match lineStart (line - 1) text with
  | none => text.length
  | some start =>
      let rest := (text.drop start).takeWhile (· != '\n')
      let rest := if rest.getLast? = some '\r' then rest.dropLast else rest
      start + min (column - 1) rest.length

/-- `positionAt`, of an offset in characters. -/
def positionAt (text : List Char) (offset : Nat) : Position :=
  (text.take offset).foldl (fun p c =>
    if c = '\n' then ⟨p.line + 1, 0⟩
    else if c = '\r' then p
    else ⟨p.line, p.character + if c.val ≤ 0xFFFF then 1 else 2⟩) ⟨0, 0⟩

/-- The range of the character at a line and a column. -/
def rangeAt (text : List Char) (line column : Nat) : Range :=
  let start := offsetFromLineColumn text line column
  let stop := if start < text.length then start + 1 else start
  ⟨positionAt text start, positionAt text stop⟩

/-! ## Documents -/

/-- `document` -/
structure Document where
  uri : String
  path : String
  text : String
  version : Int
deriving DecidableEq, Repr

/-- `Server.docs`: at most one document for each URI. -/
structure Documents where
  entries : List Document
  distinct : (entries.map (·.uri)).Nodup

namespace Documents

def empty : Documents := ⟨[], nodup_nil⟩

/-- `s.docs[uri]` -/
def find (docs : Documents) (uri : String) : Option Document :=
  docs.entries.find? (·.uri == uri)

/-- `delete(s.docs, uri)` -/
def erase (docs : Documents) (uri : String) : Documents where
  entries := docs.entries.filter (·.uri != uri)
  distinct := docs.distinct.sublist (filter_sublist.map _)

/-- `s.docs[doc.URI] = doc` -/
def store (docs : Documents) (doc : Document) : Documents where
  entries := (docs.erase doc.uri).entries ++ [doc]
  distinct := by
    rw [map_append, nodup_append]
    refine ⟨(docs.erase doc.uri).distinct, nodup_singleton _, ?_⟩
    intro uri huri other hother heq
    obtain ⟨doc', hmem, rfl⟩ := mem_map.mp huri
    rw [mem_map] at hother
    obtain ⟨doc'', hmem', rfl⟩ := hother
    rw [mem_singleton.mp hmem'] at heq
    have hne := of_mem_filter hmem
    simp [heq] at hne

end Documents

/-! ## Publishing -/

/-- A diagnostic as it is sent. -/
structure Published where
  range : Range
  severity : Nat := 1
  code : String
  source : String := "kryndel"
  message : String
deriving DecidableEq, Repr

/-- The parameters of `textDocument/publishDiagnostics`. -/
structure Packet where
  uri : String
  version : Option Int := none
  diagnostics : List Published
deriving DecidableEq, Repr

/-- An order in which a table of documents is ranged over. -/
structure MapOrder where
  order : List Document → List Document
  perm : ∀ docs, (order docs).Perm docs

/-- What the server runs on: `LoadProgramWithSources`, `Check` and `ValidateASTLimits`, with
    the texts of the open documents by their paths; `os.ReadFile`; and the conversions. -/
structure Host (Disk : Type) where
  analyse : Disk → List (String × String) → String → Option Diagnostic
  readFile : Disk → String → Option String
  pathFromURI : String → Option String
  uriFromPath : String → String

/-- What surrounds a notification while it is handled: the files, and the order of the table
    while each of the documents is validated. -/
structure Surroundings (Disk : Type) where
  disk : Disk
  order : String → MapOrder

/-- `codeFor` -/
def codeFor : Category → String
  | .lex => "KRY001"
  | .parse => "KRY002"
  | .type => "KRY003"
  | .runtime => "KRY004"
  | .artifact => "KRY005"
  | .cli => "KRY006"
  | .io => "KRY007"
  | .resource => "KRY008"

section Server

variable {Disk : Type} (host : Host Disk) (around : Surroundings Disk) (docs : Documents)

/-- The documents in the order in which they are ranged over while one is validated. -/
def ranged (doc : Document) : List Document := (around.order doc.uri).order docs.entries

/-- `analysis`, up to its diagnostic. -/
def analysis (doc : Document) : Option Diagnostic :=
  host.analyse around.disk ((ranged around docs doc).map fun open' => (open'.path, open'.text))
    doc.path

/-- Does a diagnostic name the file it is in? -/
def namesFile (d : Diagnostic) : Bool := d.source != "" && d.source != "<input>"

/-- What is published at a URI about a text. -/
def packetAt (doc : Document) (d : Diagnostic) (fileURI text : String)
    (sourceVersion : Option Int) : Packet where
  uri := fileURI
  version := if fileURI = doc.uri then some doc.version else sourceVersion
  diagnostics := [{ range := rangeAt text.toList d.line d.column
                    code := codeFor d.category, message := d.message }]

/-- `publishDiagnostic` -/
def publishDiagnostic (doc : Document) (d : Diagnostic) : Packet :=
  if namesFile d && d.source != doc.path then
    match (ranged around docs doc).find? (·.path == d.source) with
    | some open' => packetAt doc d open'.uri open'.text (some open'.version)
    | none =>
        packetAt doc d (host.uriFromPath d.source) ((host.readFile around.disk d.source).getD "")
          none
  else
    packetAt doc d (if namesFile d then host.uriFromPath d.source else doc.uri) doc.text none

/-- What a document's analysis reports. -/
def report (doc : Document) : Option Packet :=
  (analysis host around docs doc).map (publishDiagnostic host around docs doc)

/-- `validate` of an open document. -/
def validateDocument (doc : Document) : Packet :=
  match report host around docs doc with
  | none => { uri := doc.uri, version := some doc.version, diagnostics := [] }
  | some packet => packet

/-- `validate` -/
def validate (uri : String) : Option Packet :=
  (docs.find uri).map (validateDocument host around docs)

/-- `validateWorkspace` -/
def validateWorkspace : List Packet :=
  ((docs.entries.map (·.uri)).mergeSort fun a b => decide (a ≤ b)).filterMap
    (validate host around docs)

/-- All that the analyses of the open documents report. -/
def reports : List Packet := docs.entries.filterMap (report host around docs)

end Server

/-! ## Notifications -/

/-- The notifications about documents. -/
inductive Notification where
  | didOpen (uri text : String) (version : Int)
  | didChange (uri : String) (changes : List String) (version : Int)
  | didSave (uri : String) (text : Option String)
  | didClose (uri : String)

/-- What a notification does: it changes the documents, publishes some packets at once, and
    has the workspace validated or not. -/
structure Update where
  docs : Documents
  packets : List Packet := []
  validated : Bool

/-- Does a path have the extension of sources? -/
def isSource (path : String) : Bool := ".kry".toList.isSuffixOf path.toList

/-- `change` -/
def Documents.change (docs : Documents) (uri text : String) (version : Int) : Update :=
  match docs.find uri with
  | none => { docs, validated := false }
  | some doc =>
      if version ≠ 0 ∧ version < doc.version then { docs, validated := false }
      else
        { docs := docs.store { doc with text, version := if version ≠ 0 then version else doc.version }
          validated := true }

/-- The part of `dispatch` about documents. -/
def Documents.update {Disk : Type} (host : Host Disk) (docs : Documents) : Notification → Update
  | .didOpen uri text version =>
      match (host.pathFromURI uri).filter isSource with
      | none => { docs, packets := [{ uri, diagnostics := [] }], validated := false }
      | some path => { docs := docs.store { uri, path, text, version }, validated := true }
  | .didChange uri changes version =>
      match changes.getLast? with
      | none => { docs, validated := false }
      | some text => docs.change uri text version
  | .didSave uri (some text) => docs.change uri text 0
  | .didSave _ none => { docs, validated := true }
  | .didClose uri =>
      { docs := docs.erase uri, packets := [{ uri, diagnostics := [] }], validated := true }

/-! ## Sessions -/

/-- The client takes the last list for each URI. -/
def receive (client : String → List Published) (packet : Packet) : String → List Published :=
  Function.update client packet.uri packet.diagnostics

/-- A server and its client. What the latest analysis of the open documents has reported is
    kept beside them. -/
structure Session where
  docs : Documents := .empty
  client : String → List Published := fun _ => []
  latest : List Packet := []

/-- A notification is handled, and the client takes what is published. -/
def Session.step {Disk : Type} (host : Host Disk) (s : Session)
    (event : Notification × Surroundings Disk) : Option Session :=
  let update := s.docs.update host event.1
  let cleared := update.packets.foldl receive s.client
  if update.validated then
    some { docs := update.docs
           client := (validateWorkspace host event.2 update.docs).foldl receive cleared
           latest := reports host event.2 update.docs }
  else some { docs := update.docs, client := cleared, latest := s.latest }

end Kryndel.Lsp
