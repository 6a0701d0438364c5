import MatrixFree.Description.Form

/-!
# Descriptions as text

A description is exchanged as an indented JSON text, alone or as the bytes of a file.
-/

namespace MatrixFree

/-- Why a description cannot be loaded. -/
inductive DescriptionError where
  /-- There is no file, or it is no text. -/
  | unreadable
  | format (f : Json.Fault)
  | graph (e : GraphError)
  deriving DecidableEq, Repr

/-- The wording of an error; a text that is no JSON text has none of its own. -/
def DescriptionError.message : DescriptionError → Option String
  | unreadable => none
  | format (.mismatch m) => some ("malformed graph description: " ++ m.message)
  | format _ => none
  | graph e => some ("invalid graph: " ++ e.message)

namespace Description

def toJson (d : Description Float) : String :=
  (Form.ofDescription d).text .indented

def ofJson (text : String) : Except DescriptionError (Description Float) :=
  match Form.descriptionReader.readText text with
  | .ok v => .ok (Form.toDescription v)
  | .error f => .error (.format f)

/-- The description in a file with the given content; none is a file that cannot be read. -/
def ofFile (content : Option ByteArray) : Except DescriptionError (Description Float) :=
  match content.bind String.fromUTF8? with
  | some text => ofJson text
  | none => .error .unreadable

/-- The graph of a description. -/
def load (d : Description Float) : Except (Stop DescriptionError) (Graph Float) :=
  d.toGraph.mapError (Stop.mapFault .graph)

/-- The graph that a text describes. -/
def loadJson (text : String) : Except (Stop DescriptionError) (Graph Float) :=
  match ofJson text with
  | .error e => .error (.fault e)
  | .ok d => d.load

end Description

end MatrixFree
