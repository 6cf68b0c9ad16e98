import JsxPresence.Name
import JsxPresence.Token

namespace JsxPresence.Name

/-- HTML elements, the obsolete ones included. -/
def htmlTags : List Bytes :=
  [utf8 "a", utf8 "abbr", utf8 "acronym", utf8 "address", utf8 "applet", utf8 "area",
   utf8 "article", utf8 "aside", utf8 "audio", utf8 "b", utf8 "base", utf8 "basefont",
   utf8 "bdi", utf8 "bdo", utf8 "bgsound", utf8 "big", utf8 "blink", utf8 "blockquote",
   utf8 "body", utf8 "br", utf8 "button", utf8 "canvas", utf8 "caption", utf8 "center",
   utf8 "cite", utf8 "code", utf8 "col", utf8 "colgroup", utf8 "data", utf8 "datalist",
   utf8 "dd", utf8 "del", utf8 "details", utf8 "dfn", utf8 "dialog", utf8 "dir", utf8 "div",
   utf8 "dl", utf8 "dt", utf8 "em", utf8 "embed", utf8 "fieldset", utf8 "figcaption",
   utf8 "figure", utf8 "font", utf8 "footer", utf8 "form", utf8 "frame", utf8 "frameset",
   utf8 "h1", utf8 "h2", utf8 "h3", utf8 "h4", utf8 "h5", utf8 "h6", utf8 "head", utf8 "header",
   utf8 "hgroup", utf8 "hr", utf8 "html", utf8 "i", utf8 "iframe", utf8 "image", utf8 "img",
   utf8 "input", utf8 "ins", utf8 "isindex", utf8 "kbd", utf8 "keygen", utf8 "label",
   utf8 "legend", utf8 "li", utf8 "link", utf8 "listing", utf8 "main", utf8 "map", utf8 "mark",
   utf8 "marquee", utf8 "math", utf8 "menu", utf8 "menuitem", utf8 "meta", utf8 "meter",
   utf8 "multicol", utf8 "nav", utf8 "nextid", utf8 "nobr", utf8 "noembed", utf8 "noframes",
   utf8 "noscript", utf8 "object", utf8 "ol", utf8 "optgroup", utf8 "option", utf8 "output",
   utf8 "p", utf8 "param", utf8 "picture", utf8 "plaintext", utf8 "portal", utf8 "pre",
   utf8 "progress", utf8 "q", utf8 "rb", utf8 "rp", utf8 "rt", utf8 "rtc", utf8 "ruby", utf8 "s",
   utf8 "samp", utf8 "script", utf8 "search", utf8 "section", utf8 "select", utf8 "slot",
   utf8 "small", utf8 "source", utf8 "spacer", utf8 "span", utf8 "strike", utf8 "strong",
   utf8 "style", utf8 "sub", utf8 "summary", utf8 "sup", utf8 "svg", utf8 "table", utf8 "tbody",
   utf8 "td", utf8 "template", utf8 "textarea", utf8 "tfoot", utf8 "th", utf8 "thead",
   utf8 "time", utf8 "title", utf8 "tr", utf8 "track", utf8 "tt", utf8 "u", utf8 "ul",
   utf8 "var", utf8 "video", utf8 "wbr", utf8 "xmp", utf8 "fencedframe"]

/-- SVG elements. -/
def svgTags : List Bytes :=
  [utf8 "a", utf8 "animate", utf8 "animatemotion", utf8 "animatetransform", utf8 "circle",
   utf8 "clippath", utf8 "color-profile", utf8 "cursor", utf8 "defs", utf8 "desc",
   utf8 "discard", utf8 "ellipse", utf8 "feblend", utf8 "fecolormatrix",
   utf8 "fecomponenttransfer", utf8 "fecomposite", utf8 "feconvolvematrix",
   utf8 "fediffuselighting", utf8 "fedisplacementmap", utf8 "fedistantlight",
   utf8 "fedropshadow", utf8 "feflood", utf8 "fefunca", utf8 "fefuncb", utf8 "fefuncg",
   utf8 "fefuncr", utf8 "fegaussianblur", utf8 "feimage", utf8 "femerge", utf8 "femergenode",
   utf8 "femorphology", utf8 "feoffset", utf8 "fepointlight", utf8 "fespecularlighting",
   utf8 "fespotlight", utf8 "fetile", utf8 "feturbulence", utf8 "filter", utf8 "font-face",
   utf8 "foreignobject", utf8 "g", utf8 "glyph", utf8 "hatch", utf8 "hatchpath", utf8 "image",
   utf8 "line", utf8 "lineargradient", utf8 "marker", utf8 "mask", utf8 "mesh",
   utf8 "meshgradient", utf8 "meshpatch", utf8 "meshrow", utf8 "metadata", utf8 "missing-glyph",
   utf8 "mpath", utf8 "path", utf8 "pattern", utf8 "polygon", utf8 "polyline",
   utf8 "radialgradient", utf8 "rect", utf8 "script", utf8 "set", utf8 "solidcolor", utf8 "stop",
   utf8 "style", utf8 "svg", utf8 "switch", utf8 "symbol", utf8 "text", utf8 "textpath",
   utf8 "title", utf8 "tspan", utf8 "use", utf8 "view"]

/-- A markup element, in whatever case. -/
def isMarkupTag (name : Bytes) : Bool :=
  let lower := lowerCase name
  htmlTags.contains lower || svgTags.contains lower

/-- Global values that look like components. -/
def globalValues : List Bytes := [utf8 "Infinity", utf8 "NaN", utf8 "undefined"]

/-- A single name that denotes a component: it starts with a capital and is neither a markup
element, a reserved word nor a global value. -/
def isComponent (name : Bytes) : Bool :=
  isUpper (name.headD 0) && isIdentifier name && !isReservedWord name &&
    !globalValues.contains name && !isMarkupTag name

end JsxPresence.Name
