import RecordCheck.Json.Basic

/-!
# The schema of schemas

The schema that describes the schema language itself. It is known by its address without being
loaded.
-/

namespace RecordCheck.MetaSchema

set_option autoImplicit false

def address : String := "http://json-schema.org/draft-04/schema"

def ofType (name : String) : Json := .object [("type", .string name)]

def self : Json := .object [("$ref", .string "#")]

def definition (name : String) : Json := .object [("$ref", .string ("#/definitions/" ++ name))]

def definitions : Json :=
  .object [
    ("schemaArray", .object [("type", .string "array"), ("minItems", .number (.int 1)), ("items",
      self)]),
    ("positiveInteger", .object [("type", .string "integer"), ("minimum", .number (.int 0))]),
    ("positiveIntegerDefault0", .object [("allOf", .array [definition "positiveInteger",
      .object [("default", .number (.int 0))]])]),
    ("simpleTypes", .object [("enum", .array [.string "array", .string "boolean",
      .string "integer", .string "null", .string "number", .string "object", .string "string"])]),
    ("stringArray", .object [("type", .string "array"), ("items", ofType "string"), ("minItems",
      .number (.int 1)), ("uniqueItems", .bool true)])]

def properties : Json :=
  .object [
    ("id", ofType "string"),
    ("$schema", ofType "string"),
    ("title", ofType "string"),
    ("description", ofType "string"),
    ("default", .object []),
    ("multipleOf", .object [("type", .string "number"), ("minimum", .number (.int 0)),
      ("exclusiveMinimum", .bool true)]),
    ("maximum", ofType "number"),
    ("exclusiveMaximum", ofType "boolean"),
    ("minimum", ofType "number"),
    ("exclusiveMinimum", ofType "boolean"),
    ("maxLength", definition "positiveInteger"),
    ("minLength", definition "positiveIntegerDefault0"),
    ("pattern", .object [("type", .string "string"), ("format", .string "regex")]),
    ("additionalItems", .object [("anyOf", .array [ofType "boolean", self]), ("default",
      .object [])]),
    ("items", .object [("anyOf", .array [self, definition "schemaArray"]), ("default",
      .object [])]),
    ("maxItems", definition "positiveInteger"),
    ("minItems", definition "positiveIntegerDefault0"),
    ("uniqueItems", .object [("type", .string "boolean"), ("default", .bool false)]),
    ("maxProperties", definition "positiveInteger"),
    ("minProperties", definition "positiveIntegerDefault0"),
    ("required", definition "stringArray"),
    ("additionalProperties", .object [("anyOf", .array [ofType "boolean", self]), ("default",
      .object [])]),
    ("definitions", .object [("type", .string "object"), ("additionalProperties", self),
      ("default", .object [])]),
    ("properties", .object [("type", .string "object"), ("additionalProperties", self), ("default",
      .object [])]),
    ("patternProperties", .object [("type", .string "object"), ("additionalProperties", self),
      ("default", .object [])]),
    ("dependencies", .object [("type", .string "object"), ("additionalProperties",
      .object [("anyOf", .array [self, definition "stringArray"])])]),
    ("enum", .object [("type", .string "array"), ("minItems", .number (.int 1)), ("uniqueItems",
      .bool true)]),
    ("type", .object [("anyOf", .array [definition "simpleTypes", .object [("type",
      .string "array"), ("items", definition "simpleTypes"), ("minItems", .number (.int 1)),
      ("uniqueItems", .bool true)]])]),
    ("format", ofType "string"),
    ("allOf", definition "schemaArray"),
    ("anyOf", definition "schemaArray"),
    ("oneOf", definition "schemaArray"),
    ("not", self)]

/-- The whole document. -/
def document : Json :=
  .object [
    ("id", .string (address ++ "#")),
    ("$schema", .string (address ++ "#")),
    ("description", .string "Core schema meta-schema"),
    ("definitions", definitions),
    ("type", .string "object"),
    ("properties", properties),
    ("dependencies", .object [("exclusiveMaximum", .array [.string "maximum"]),
      ("exclusiveMinimum", .array [.string "minimum"])]),
    ("default", .object [])]

end RecordCheck.MetaSchema
