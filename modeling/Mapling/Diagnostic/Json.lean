import Mapling.Diagnostic
import Mapling.Json.Codec

/-! # Diagnostics as JSON

A report is written with its fields in a fixed order; a suggestion is left out if there is
none. The span of a diagnostic is written as four fields of the diagnostic itself. -/

namespace Mapling

/-- Codes are below two to the power of 16. -/
def codeBound : Nat := 65536

def Code.codec (L : Library) : Codec Code := L.wrapped Code.mk Code.number (L.unsigned codeBound)

def Category.codec (L : Library) : Codec Category := L.named name all

def Span.fields (L : Library) : Fields Span :=
  let position := L.unsigned positionBound
  .make (fun (line, col, line', col') => ⟨⟨line, col⟩, ⟨line', col'⟩⟩)
    (fun s => (s.start.line, s.start.col, s.stop.line, s.stop.col))
    (.both (.field "line" position) (.both (.field "column" position)
      (.both (.field "end_line" position) (.field "end_column" position))))

def Diagnostic.fields (L : Library) : Fields Diagnostic :=
  .make (fun (file, code, category, message, span, sourceLine, suggestion) =>
      ⟨file, code, category, message, span, sourceLine, suggestion⟩)
    (fun d => (d.file, d.code, d.category, d.message, d.span, d.sourceLine, d.suggestion))
    (.both (.field "file" L.string) (.both (.field "code" (Code.codec L))
      (.both (.field "category" (Category.codec L)) (.both (.field "message" L.string)
        (.both (.flatten (Span.fields L)) (.both (.field "source_line" L.string)
          (.optional "suggestion" L.string)))))))

namespace Report

def fields (L : Library) : Fields Report :=
  .make (fun (kept, total) => ⟨kept, total⟩) (fun r => (r.kept, r.total))
    (.both (.field "errors" (L.list (L.record (Diagnostic.fields L))))
      (.field "total_errors" (L.unsigned Json.sizeBound)))

def codec (L : Library) : Codec Report := L.record (fields L)

/-- The text of a report; an empty object if there is none. -/
def jsonText (L : Library) (r : Report) : String :=
  (L.text? ((codec L).write r)).getD "\x7b\x7d"

def toJson (r : Report) : Json := (codec .json).write r

def read? (s : String) : Option Report := Library.json.read? (codec .json) s

end Report

end Mapling
