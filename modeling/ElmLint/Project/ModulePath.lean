/-!
# Where modules live

The segments of a module name are the directories of its file under a source directory.
-/

namespace ElmLint

/-- The file of a module relative to its source directory: `Json.Decode` lives in
`Json/Decode.elm`. -/
def modulePath (module : String) : String :=
  String.ofList (module.toList.map fun c => if c = '.' then '/' else c) ++ ".elm"

end ElmLint
