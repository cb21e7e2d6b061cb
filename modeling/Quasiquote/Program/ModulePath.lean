namespace Quasiquote.ModulePath

def isRelative (specifier : String) : Bool :=
  "./".toList.isPrefixOf specifier.toList || "../".toList.isPrefixOf specifier.toList

/-- Follow the segments of a path from a directory. There is nothing above the outermost one. -/
def follow : List String → List String → Option (List String)
  | directory, [] => some directory
  | directory, segment :: rest =>
    if segment = "" || segment = "." then follow directory rest
    else if segment = ".." then
      if directory.isEmpty then none else follow directory.dropLast rest
    else follow (directory ++ [segment]) rest

def resolve (importer specifier : String) : Option String :=
  (follow (importer.splitOn "/").dropLast (specifier.splitOn "/")).map "/".intercalate

/-- The names a file at a path may have, in the order in which they are tried. -/
def candidates (base : String) : List String :=
  [base ++ ".ts", base ++ ".tsx", base ++ "/index.ts", base]

end Quasiquote.ModulePath
