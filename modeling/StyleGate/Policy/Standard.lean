import StyleGate.Policy

/-!
# The default policy

What is allowed where no policy of the user's own says otherwise. Loading other stylesheets is opt-in,
urls are not allowed, and the at-rules that must come first have indexes below the ordinary one.
-/

namespace StyleGate.Policy

/-- The at-rules of the default policy. -/
def defaultAtRules : List AtRulePolicy :=
  [{ name := "charset"
     description := some "Character encoding declaration. Only valid as the very first rule."
     index := ⟨0, 1⟩ },
   { name := "import"
     description := some "Loads another stylesheet. Disabled unless enabled explicitly."
     index := RuleIndex.single 1
     optIn := true },
   { name := "namespace"
     description := some "Declares a default or prefixed XML namespace."
     index := RuleIndex.single 2 },
   { name := "media"
     description := some "Conditional group rule on media queries."
     block := .rules },
   { name := "supports"
     description := some "Conditional group rule on feature queries."
     block := .rules },
   { name := "font-face"
     description := some "Declares a downloadable font."
     block := .declarations },
   { name := "page"
     description := some "Paged media margins and size."
     block := .declarations }]

/-- The properties of the default policy. -/
def defaultProperties : List String :=
  ["color", "background-color", "background", "border", "border-color", "border-style",
   "border-width", "border-radius", "border-top", "border-right", "border-bottom", "border-left",
   "outline", "margin", "margin-top", "margin-right", "margin-bottom", "margin-left", "padding",
   "padding-top", "padding-right", "padding-bottom", "padding-left", "width", "height",
   "min-width", "min-height", "max-width", "max-height", "display", "visibility", "float",
   "clear", "overflow", "vertical-align", "text-align", "text-decoration", "text-indent",
   "text-transform", "white-space", "line-height", "letter-spacing", "word-spacing", "font",
   "font-family", "font-size", "font-style", "font-weight", "font-variant", "font-display", "src",
   "list-style", "list-style-type", "border-collapse", "border-spacing", "opacity", "size"]

/-- The functions that values may use by default. -/
def defaultFunctions : List String := ["rgb", "rgba", "hsl", "hsla", "calc", "var"]

/-- The functions that selectors may use by default. -/
def defaultSelectorFunctions : List String :=
  ["not", "is", "where", "nth-child", "nth-last-child", "nth-of-type", "nth-last-of-type", "lang",
   "dir"]

/-- The default policy. -/
def standard : Policy where
  atRules := defaultAtRules
  styleRules := { properties := defaultProperties }
  values := { functions := defaultFunctions }
  selectors := ⟨defaultSelectorFunctions⟩

end StyleGate.Policy
