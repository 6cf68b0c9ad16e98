import JsxPresence.Marker
import JsxPresence.Reference

namespace JsxPresence.Survey

/-- The specifiers that a file names. -/
def specifiers (o : Outline) : List Bytes :=
  o.imports.map (·.specifier) ++ o.exports.filterMap fun e =>
    match e.kind with
    | .fromHere _ _ => none
    | .fromFile _ _ specifier | .allFrom specifier | .moduleFrom _ specifier => some specifier

/-- The files that a specifier in a directory may mean. -/
def candidates (env : Environment) (directory specifier : Bytes) : List Bytes :=
  if Specifier.isExternal env.options specifier then []
  else
    match Specifier.base? env specifier directory with
    | none => []
    | some base =>
      base :: env.options.extensions.map (base ++ ·) ++
        Specifier.indexCandidates env.options base

/-- Where the root of a project may be marked, seen from a directory. -/
def rootMarkers (env : Environment) (directory : Bytes) : List Bytes :=
  (Path.ancestors directory).map (Path.join · env.options.rootMarker)

/-- The names in a file that may be members of something. -/
def memberNames (options : Options) (file : ParsedFile) : List Bytes :=
  let usages := (Symbols.ofOutline file.outline).usages.flatMap (·.path)
  let targets := (Marker.all options file).flatMap fun m => Name.split m.target
  let values := file.outline.declarations.flatMap fun d => (d.properties.getD []).flatMap (·.path)
  usages ++ targets ++ values

/-- The source files among the files at hand that can be read. -/
def sources (env : Environment) : List ParsedFile :=
  env.files.nodes.filterMap fun (place, node) =>
    let path := place.flatMap (Path.slash :: ·)
    match node with
    | .directory => none
    | .file content =>
      if Specifier.hasSourceExtension env.options path then
        match Outline.parse ⟨path, content⟩ with
        | .ok outline => some ⟨path, ⟨path, content⟩, outline⟩
        | .error _ => none
      else none

/-- The paths that an analysis of the files at hand may ask for. -/
def wanted (env : Environment) : List Bytes :=
  let files := sources env
  let members := (files.flatMap (memberNames env.options)).eraseDups
  let directories := (files.map fun f => Path.parent f.path).eraseDups
  directories.flatMap (rootMarkers env) ++
    files.flatMap (fun f =>
      (specifiers f.outline).flatMap (candidates env (Path.parent f.path))) ++
    files.flatMap (fun f => members.flatMap (Reference.namesakes env f.path))

end JsxPresence.Survey
