/-!
# Names of a configuration key

Under which names a dotted key such as `server.port` is looked for among program arguments and
environment variables. Only ASCII letters change their case.
-/
namespace AttributeTrees.Config

/-- `server.max_conn` is the argument `--server-max-conn`. -/
def argumentName (key : String) : String :=
  "--" ++ String.ofList (key.toList.map fun c => if c = '.' ∨ c = '_' then '-' else c)

/-- `server.max-conn` is the variable `SERVER_MAX_CONN` behind the application's own name. -/
def variableName (owner key : String) : String :=
  let name := String.ofList
    (key.toList.map fun c => if c = '.' ∨ c = '-' then '_' else c.toUpper)
  if owner.isEmpty then name else owner ++ "_" ++ name

def variableOwner (app : String) : String :=
  String.ofList (app.toList.map fun c => if c.isAlphanum then c.toUpper else '_')

end AttributeTrees.Config
