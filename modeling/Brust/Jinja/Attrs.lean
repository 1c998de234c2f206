import Brust.Jinja.Url

/-!
# Jinja — attribute names

The tables of `brust-jinja`: the HTML name of a React attribute (`attrName`), the attributes that
are never printed or that load a URL, and what a boolean value prints as (`attrKind`).
-/

namespace Brust.Jinja

open Paint (literal cssProperty AttrKind)

/-- `to_ascii_lowercase` -/
def lower (s : List Char) : List Char := s.map Char.toLower

/-! ### Names -/

def attrNames : List (List Char × List Char) :=
  [("className", "class"), ("htmlFor", "for"), ("tabIndex", "tabindex"),
    ("readOnly", "readonly"), ("maxLength", "maxlength"), ("minLength", "minlength"),
    ("autoComplete", "autocomplete"), ("autoFocus", "autofocus"), ("autoPlay", "autoplay"),
    ("spellCheck", "spellcheck"), ("srcSet", "srcset"), ("crossOrigin", "crossorigin"),
    ("httpEquiv", "http-equiv"), ("acceptCharset", "accept-charset"),
    ("contentEditable", "contenteditable"), ("dateTime", "datetime"), ("encType", "enctype"),
    ("noValidate", "novalidate"), ("formAction", "formaction"), ("colSpan", "colspan"),
    ("rowSpan", "rowspan"), ("defaultValue", "value"), ("defaultChecked", "checked"),
    ("xlinkHref", "xlink:href"), ("xmlLang", "xml:lang")].map fun p => (literal p.1, literal p.2)

/-- SVG attributes that React writes in kebab case. -/
def svgKebab : List (List Char) :=
  ["alignmentBaseline", "baselineShift", "clipPath", "clipRule", "colorInterpolation",
    "colorInterpolationFilters", "dominantBaseline", "enableBackground", "fillOpacity", "fillRule",
    "floodColor", "floodOpacity", "fontFamily", "fontSize", "fontSizeAdjust", "fontStretch",
    "fontStyle", "fontVariant", "fontWeight", "imageRendering", "letterSpacing", "lightingColor",
    "markerEnd", "markerMid", "markerStart", "paintOrder", "pointerEvents", "shapeRendering",
    "stopColor", "stopOpacity", "strokeDasharray", "strokeDashoffset", "strokeLinecap",
    "strokeLinejoin", "strokeMiterlimit", "strokeOpacity", "strokeWidth", "textAnchor",
    "textDecoration", "textRendering", "unicodeBidi", "vectorEffect", "wordSpacing",
    "writingMode"].map literal

/-- `attr_name` -/
def attrName (reactName : List Char) : List Char :=
  match attrNames.lookup reactName with
  | some mapped => mapped
  | none => if svgKebab.contains reactName then cssProperty reactName else reactName

/-- The one key of the HTML attribute that a React name prints as. -/
def attrKey (reactName : List Char) : List Char := lower (attrName reactName)

/-! ### Kinds -/

def urlAttrs : List (List Char) :=
  ["href", "src", "action", "formaction", "poster", "data", "xlink:href", "ping"].map literal

/-- `is_url_attr` -/
def isUrlAttr (htmlName : List Char) : Bool := urlAttrs.contains (lower htmlName)

/-- `is_refused_attr` -/
def isRefusedAttr (htmlName : List Char) : Bool :=
  let n := lower htmlName
  (literal "on").isPrefixOf n || n == literal "srcdoc" || (literal "x-").isPrefixOf n

def booleanAttrs : List (List Char) :=
  ["allowfullscreen", "async", "autofocus", "autoplay", "checked", "controls", "default", "defer",
    "disabled", "disablepictureinpicture", "disableremoteplayback", "formnovalidate", "hidden",
    "inert", "itemscope", "loop", "multiple", "muted", "nomodule", "novalidate", "open",
    "playsinline", "readonly", "required", "reversed", "scoped", "seamless",
    "selected"].map literal

def overloadedAttrs : List (List Char) := ["capture", "download"].map literal

def stringifyAttrs : List (List Char) :=
  ["autoreverse", "contenteditable", "draggable", "externalresourcesrequired", "focusable",
    "preservealpha", "spellcheck", "value"].map literal

/-- `attr_kind` -/
def attrKind (htmlName : List Char) : AttrKind :=
  let n := lower htmlName
  if (literal "aria-").isPrefixOf n || (literal "data-").isPrefixOf n ||
      stringifyAttrs.contains n then .stringify
  else if booleanAttrs.contains n then .boolean
  else if overloadedAttrs.contains n then .overloaded
  else .plain

/-! ### Checks -/

/-- What a spread never turns into attributes. -/
def notAttrs : List (List Char) :=
  ["children", "key", "ref", "dangerouslySetInnerHTML"].map literal

def nameStart (c : Char) : Bool := c.isAlpha || c == '_' || c == ':'

def nameChar (c : Char) : Bool := c.isAlphanum || ['_', ':', '.', '-'].contains c

/-- `attr_name_ok` -/
def attrNameOk : List Char → Bool
  | [] => false
  | c :: cs => nameStart c && cs.all nameChar

/-- `spread_key_ok` -/
def spreadKeyOk (reactName : List Char) : Bool :=
  if notAttrs.contains reactName || !attrNameOk reactName then false
  else attrNameOk (attrName reactName) && !isRefusedAttr (attrName reactName)

end Brust.Jinja
