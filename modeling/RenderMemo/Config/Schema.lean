import RenderMemo.Config.Reader
import RenderMemo.Json.Printer

namespace RenderMemo.Settings

-- The schema of one member of the settings.
def memberSchema (description : String) (value : Json) (rest : List (String × Json)) : Json :=
  .obj (("description", .str description) :: ("default", value) :: rest)

-- The schema of one import style, with the statement it leads to.
def styleSchema (description : String) (style : ImportStyle) : Json :=
  .obj [("description", .str description), ("type", .str "string"),
    ("enum", .arr [.str style.text])]

-- The schema of a configuration file.
def schema : Json :=
  let defaults : Settings := {}
  .obj [
    ("$schema", .str "http://json-schema.org/draft-07/schema#"),
    ("title", .str "BindMemoizerJSONConfig"),
    ("description", .str ("A JSON serializable proxy for the BindMemoizerConfig struct\n\nThis " ++
      "struct is used to deserialize the transform options from a config file or from the host " ++
      "pipeline's plugin options.")),
    ("type", .str "object"),
    ("properties", .obj [
      ("cacheSize", memberSchema
        ("Maximum number of bound functions each binder keeps alive. Least recently used entries " ++
          "are evicted past this size.")
        (.nat defaults.cacheSize.toNat)
        [("type", .str "integer"), ("format", .str "uint"), ("minimum", .num 0 1)]),
      ("dedupeCaptures", memberSchema
        ("If true, a variable referenced several times inside one closure is only passed to the " ++
          "hoisted function once.\n\nOff by default, which passes one argument per reference.")
        (.bool defaults.dedupeCaptures)
        [("type", .str "boolean")]),
      ("importStyle", memberSchema
        "Whether to load the memoize module with `require` or an `import` declaration"
        (.str defaults.importStyle.text)
        [("allOf", .arr [.obj [("$ref", .str "#/definitions/ImportStyle")]])]),
      ("memoizeModule", memberSchema
        ("Module specifier the memoize function is loaded from.\n\nThe module's default export " ++
          "must be a function of the shape `memoize(capacity)(fn)`.")
        (.str defaults.memoizeModule)
        [("type", .str "string")])]),
    ("definitions", .obj [
      ("ImportStyle", .obj [
        ("description", .str
          "How the memoize function is brought into scope at the top of the module."),
        ("oneOf", .arr [
          styleSchema "`const _memoize = require(\"lru-memoize\");`" .require,
          styleSchema
            ("`import _memoize from \"lru-memoize\";`\n\nScripts cannot contain import " ++
              "declarations, so they fall back to `require`.")
            .esModule])])])]

def schemaText : String := schema.pretty 0

end RenderMemo.Settings
