import JsxPresence.Bytes

namespace JsxPresence

/-- How deep a search or a chain of lookups is; the largest depth is followed by zero. -/
abbrev Depth := UInt32

structure Options where
  markerFunction : Bytes := utf8 "isComponentPresent"
  componentFunction : Bytes := utf8 "component$"
  propPrefix : Bytes := utf8 "__qwik_analyzer_has"
  propsParam : Bytes := utf8 "props"
  aliasPrefix : Bytes := utf8 "~/"
  rootMarker : Bytes := utf8 "package.json"
  sourceDir : Bytes := utf8 "src"
  extensions : List Bytes := [utf8 ".tsx", utf8 ".ts", utf8 ".jsx", utf8 ".js"]
  /-- How many steps a presence search or a chain of exports may take. -/
  maxDepth : Depth := 32
  /-- If set, markers count only in files that import them from here. -/
  moduleSpecifier : Option Bytes := none
  /-- Also inject the props that are false. -/
  injectFalse : Bool := false
  /-- Members that do not resolve may be found by file name. -/
  heuristicLookup : Bool := true
deriving DecidableEq

/-- The prop that carries the answer for a target: every byte of the target that is no letter or
digit becomes an underscore. -/
def Options.propName (o : Options) (target : Bytes) : Bytes :=
  o.propPrefix ++ byte '_' :: target.map (fun b => if isAlnum b then b else byte '_')

end JsxPresence
