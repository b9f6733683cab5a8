import Ripple.Json.Basic
import Ripple.Outline.Basic

/-!
# Stored Outlines

The stored form of outlines and their parts. Values that are not there are
left out, and an absent list stays different from an empty one.
-/

namespace Ripple

open Json

namespace DeclarationKind

def toJson (k : DeclarationKind) : Json := .text k.text

def ofText? (s : String) : Option DeclarationKind := all.find? fun k => k.text = s

def ofJson? (j : Json) : Option DeclarationKind := j.variant?.bind ofText?

instance : OfJson DeclarationKind := ⟨DeclarationKind.ofJson?⟩

end DeclarationKind

namespace DeclarationKey

def toJson (k : DeclarationKey) : Json := .object [("kind", k.kind.toJson), ("name", .text k.name)]

def ofJson? : Json → Option DeclarationKey := record? 2 fun r => do
  let kind ← r.required 0 "kind" DeclarationKind.ofJson?
  let name ← r.required 1 "name" text?
  return ⟨kind, name⟩

end DeclarationKey

namespace Parameter

def toJson (p : Parameter) : Json :=
  .object
    ([("name", .text p.name)] ++ field? "type_annotation" .text p.type ++
      [("optional", .bool p.optional)] ++ field? "default_value" .text p.defaultValue)

instance : ToJson Parameter := ⟨Parameter.toJson⟩

def ofJson? : Json → Option Parameter := record? 4 fun r => do
  let name ← r.required 0 "name" text?
  let type ← r.optional 1 "type_annotation" text?
  let optional ← r.withDefault 2 "optional" bool? false
  let defaultValue ← r.optional 3 "default_value" text?
  return ⟨name, type, optional, defaultValue⟩

instance : OfJson Parameter := ⟨Parameter.ofJson?⟩

end Parameter

namespace Location

def toJson (l : Location) : Json :=
  .object
    [("start_offset", ofUInt64 l.startOffset), ("end_offset", ofUInt64 l.endOffset),
      ("line", ofUInt64 l.line), ("end_line", ofUInt64 l.endLine)]

def ofJson? : Json → Option Location := record? 4 fun r => do
  let startOffset ← r.required 0 "start_offset" uint64?
  let endOffset ← r.required 1 "end_offset" uint64?
  let line ← r.required 2 "line" uint64?
  let endLine ← r.required 3 "end_line" uint64?
  return ⟨startOffset, endOffset, line, endLine⟩

end Location

namespace Declaration

def toJson (d : Declaration) : Json :=
  .object
    ([("kind", d.kind.toJson), ("name", .text d.name)] ++ field? "signature" .text d.signature ++
      field? "parameters" (fun ps => .list (ps.map Parameter.toJson)) d.parameters ++
      field? "return_type" .text d.returnType ++ field? "exports" ofTexts d.exports ++
      [("location", d.location.toJson)] ++ fieldUnlessEmpty "calls" .text d.calls)

instance : ToJson Declaration := ⟨Declaration.toJson⟩

def ofJson? : Json → Option Declaration := record? 8 fun r => do
  let kind ← r.required 0 "kind" DeclarationKind.ofJson?
  let name ← r.required 1 "name" text?
  let signature ← r.optional 2 "signature" text?
  let parameters ← r.optional 3 "parameters" (listOf? Parameter.ofJson?)
  let returnType ← r.optional 4 "return_type" text?
  let exports ← r.optional 5 "exports" texts?
  let location ← r.withDefault 6 "location" Location.ofJson? .unknown
  let calls ← r.withDefault 7 "calls" texts? []
  return ⟨kind, name, signature, parameters, returnType, exports, location, calls⟩

instance : OfJson Declaration := ⟨Declaration.ofJson?⟩

end Declaration

namespace Import

def toJson (i : Import) : Json :=
  .object
    [("source", .text i.source), ("names", ofTexts i.names), ("is_external", .bool i.isExternal),
      ("is_type_only", .bool i.isTypeOnly)]

instance : ToJson Import := ⟨Import.toJson⟩

def ofJson? : Json → Option Import := record? 4 fun r => do
  let source ← r.required 0 "source" text?
  let names ← r.withDefault 1 "names" texts? []
  let isExternal ← r.required 2 "is_external" bool?
  let isTypeOnly ← r.withDefault 3 "is_type_only" bool? false
  return ⟨source, names, isExternal, isTypeOnly⟩

instance : OfJson Import := ⟨Import.ofJson?⟩

end Import

namespace ExportKind

def text : ExportKind → String
  | declared kind => kind.text
  | default => "default"
  | reExport => "re_export"

def all : List ExportKind := DeclarationKind.all.map declared ++ [default, reExport]

def ofJson? (j : Json) : Option ExportKind := j.variant?.bind fun s => all.find? fun k => k.text = s

end ExportKind

namespace Export

def toJson (e : Export) : Json :=
  .object
    [("name", .text e.name), ("kind", .text e.kind.text), ("is_type_only", .bool e.isTypeOnly)]

instance : ToJson Export := ⟨Export.toJson⟩

def ofJson? : Json → Option Export := record? 3 fun r => do
  let name ← r.required 0 "name" text?
  let kind ← r.required 1 "kind" ExportKind.ofJson?
  let isTypeOnly ← r.withDefault 2 "is_type_only" bool? false
  return ⟨name, kind, isTypeOnly⟩

instance : OfJson Export := ⟨Export.ofJson?⟩

end Export

namespace Fault

def toJson (f : Fault) : Json :=
  .object
    [("message", .text f.message), ("line", ofUInt64 f.line), ("column", ofUInt64 f.column)]

instance : ToJson Fault := ⟨Fault.toJson⟩

def ofJson? : Json → Option Fault := record? 3 fun r => do
  let message ← r.required 0 "message" text?
  let line ← r.withDefault 1 "line" uint64? 0
  let column ← r.withDefault 2 "column" uint64? 0
  return ⟨message, line, column⟩

instance : OfJson Fault := ⟨Fault.ofJson?⟩

end Fault

namespace Outline

def toJson (o : Outline) : Json :=
  .object
    ([("file_path", .text o.path), ("hash", .text o.hash),
        ("nodes", .list (o.declarations.map Declaration.toJson)),
        ("imports", .list (o.imports.map Import.toJson)),
        ("exports", .list (o.exports.map Export.toJson))] ++
      fieldUnlessEmpty "parse_errors" Fault.toJson o.faults)

instance : ToJson Outline := ⟨Outline.toJson⟩

def ofJson? : Json → Option Outline := record? 6 fun r => do
  let path ← r.required 0 "file_path" text?
  let hash ← r.required 1 "hash" text?
  let declarations ← r.withDefault 2 "nodes" (listOf? Declaration.ofJson?) []
  let imports ← r.withDefault 3 "imports" (listOf? Import.ofJson?) []
  let exports ← r.withDefault 4 "exports" (listOf? Export.ofJson?) []
  let faults ← r.withDefault 5 "parse_errors" (listOf? Fault.ofJson?) []
  return ⟨path, hash, declarations, imports, exports, faults⟩

instance : OfJson Outline := ⟨Outline.ofJson?⟩

end Outline

end Ripple
