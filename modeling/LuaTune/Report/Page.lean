import LuaTune.Report.Basic

/-! # The page of a report -/

namespace LuaTune.Report

open Files Text

def severityClass : Severity → String
  | .green => "green"
  | .yellow => "yellow"
  | .red => "red"
  | _ => "debug"

def severityIcon : Severity → String
  | .green => "🟢"
  | .yellow => "🟡"
  | .red => "🔴"
  | _ => "🔵"

def shownCode (f : Finding) : String :=
  String.ofList (highlight f.sourceLine.toList f.details f.pattern)

/-! ## Markup -/

/-- A part of the page, given the depth at which it stands. -/
abbrev Markup := Nat → String

abbrev Attributes := List (String × String)

def line (s : String) : Markup := fun n => blanks (4 * n) ++ s ++ "\n"

def together (ms : List Markup) : Markup := fun n => String.join (ms.map (· n))

def nested (ms : List Markup) : Markup := fun n => together ms (n + 1)

/-- A part for each element. What stands around the repetition is kept on a line of its own. -/
def each {α : Type} (xs : List α) (part : α → Markup) : Markup := fun n =>
  line (String.join (xs.map fun x => "\n" ++ part x n ++ blanks (4 * n))) n

def startTag (tag : String) (as : Attributes) : String :=
  "<" ++ tag ++ String.join (as.map fun a => " " ++ a.1 ++ "=\"" ++ a.2 ++ "\"") ++ ">"

def element (tag : String) (as : Attributes) (inside : List Markup) : Markup :=
  together [line (startTag tag as), nested inside, line ("</" ++ tag ++ ">")]

def inlineText (tag : String) (as : Attributes) (s : String) : String :=
  startTag tag as ++ s ++ "</" ++ tag ++ ">"

def leaf (tag : String) (as : Attributes) (s : String) : Markup := line (inlineText tag as s)

def div (cls : String) : List Markup → Markup := element "div" [("class", cls)]

def span (cls : String) : String → Markup := leaf "span" [("class", cls)]

def plainSpan : String → Markup := leaf "span" []

def button (cls action : String) (more : Attributes) : List Markup → Markup :=
  element "button" ([("class", cls)] ++ more ++ [("onclick", action)])

/-! ## The menu -/

def patternFilter (p : String × Nat) : Markup :=
  let name := escapeText p.1
  element "label" [("class", "pattern-checkbox")]
    [line ("<input type=\"checkbox\" checked data-pattern=\"" ++ name
      ++ "\" onchange=\"togglePattern('" ++ name ++ "')\">"),
     span "pattern-name" name,
     span "pattern-count" ("(" ++ toString p.2 ++ ")")]

def sortSection (title id action : String) (more : List Markup) : Markup :=
  div "sort-section"
    [leaf "h3" [] title,
     div "sort-controls"
      (element "select" [("class", "sort-select"), ("id", id), ("onchange", action)]
        [leaf "option" [("value", "alpha")] "Alphabetically",
         leaf "option" [("value", "issues")] "Total Issues",
         leaf "option" [("value", "impact")] "Performance Impact"] :: more)]

def sortButton (cls id direction label : String) : Markup :=
  leaf "button" [("class", cls), ("id", id),
    ("onclick", "setSortDirection('" ++ direction ++ "')")] label

def statRow (label id : String) (n : Nat) : Markup :=
  div "stat-row"
    [span "stat-label" label, leaf "span" [("class", "stat-value"), ("id", id)] (toString n)]

def filterSection (title cls : String) (inside : List Markup) : Markup :=
  div "filter-section" [leaf "h3" [] title, div cls inside]

/-- The button of a severity. That of `RED` is off at first. -/
def severityButton (s : Severity) (count : Nat) : Markup :=
  let cls := severityClass s
  button ("filter-btn " ++ cls ++ if s = .red then "" else " active")
    ("toggleFilter('" ++ cls ++ "')") [("data-filter", cls)]
    [span "icon" (severityIcon s), plainSpan s.name, span "count" (toString count)]

def impactButton (r : Report) (i : Impact) : Markup :=
  button ("filter-btn impact-" ++ i.name ++ " active") ("toggleImpact('" ++ i.name ++ "')")
    [("data-impact", i.name)]
    [plainSpan (i.name.map Char.toUpper), span "count" (toString (r.countImpact i))]

def actionButton (label action : String) : Markup := button "filter-btn" action [] [plainSpan label]

def impacts : List Impact := [.critical, .high, .medium, .low]

def sidebar (r : Report) : Markup :=
  let b := r.summary
  together
    [leaf "button" [("class", "sidebar-toggle"), ("onclick", "toggleSidebar()")] "Menu", line "",
     line (startTag "aside" [("class", "sidebar"), ("id", "sidebar")]), fun _ => "\n",
     nested
      [div "search-box"
        [line (startTag "input" [("type", "text"), ("class", "search-input"), ("id", "searchInput"),
          ("placeholder", "Search resources or scripts..."), ("oninput", "filterBySearch()")])],
       line "",
       sortSection "Sort Resources" "sortSelect" "sortResources()"
        [div "sort-direction"
          [sortButton "sort-dir-btn active" "sortAsc" "asc" "↑ ASC",
           sortButton "sort-dir-btn" "sortDesc" "desc" "↓ DESC"]],
       line "",
       sortSection "Sort Scripts" "scriptSortSelect" "sortScripts()" [],
       line "",
       div "quick-stats"
        [statRow "Findings shown" "visibleCount" r.total,
         statRow "Resources shown" "visibleResources" r.scripts.length],
       line "",
       filterSection "Severity" "filter-group"
        [severityButton .green b.green, severityButton .yellow b.yellow,
         severityButton .red b.red, severityButton .debug b.debug],
       line "",
       filterSection "Impact Level" "filter-group" (impacts.map r.impactButton),
       line "",
       filterSection "Pattern Types" "pattern-filter-group" [each r.patterns patternFilter],
       line "",
       filterSection "Actions" "filter-group"
        [actionButton "Expand All" "expandAll()", actionButton "Collapse All" "collapseAll()",
         actionButton "Reset Filters" "resetFilters()"]],
     line "</aside>"]

/-! ## Findings -/

def issueRow (i : Issue) : Markup :=
  element "tr" []
    [element "td" []
      [element "span" [("class", "issue-severity " ++ severityClass i.severity)]
        [line (severityIcon i.severity)],
       line (escapeText i.pattern)],
     leaf "td" [("class", "count")] (toString i.count),
     leaf "td" [] (inlineText "span" [("class", "impact-badge impact-" ++ i.impact.name)]
      (i.impact.name.map Char.toUpper))]

def issueTable (issues : List Issue) : Markup :=
  div "top-issues"
    [leaf "h3" [("class", "collapsible top-issues-header")]
      ("Top Issues by Type " ++ inlineText "span" [("class", "collapse-indicator")] "▼"),
     div "collapsible-content top-issues-content"
      [element "table" [("class", "issues-table")]
        [element "thead" [] [element "tr" [] (["Pattern", "Count", "Impact"].map (leaf "th" []))],
         element "tbody" [] [each issues issueRow]]]]

def codeSnippet (code : String) : Markup :=
  together [leaf "span" [("class", "code-toggle"), ("onclick", "toggleCode(this)")] "Show code",
    leaf "div" [("class", "code-snippet")] code]

def findingItem (f : Finding) : Markup :=
  let impact := (impactOf f.pattern).name
  let pattern := escapeText f.pattern
  let code := shownCode f
  together
    [line ("<div class=\"finding impact-border-" ++ impact ++ "\" "),
     nested
      [line (" data-severity=\"" ++ escapeText (lowered f.severity.name) ++ "\" "),
       line (" data-impact=\"" ++ impact ++ "\""),
       line (" data-pattern=\"" ++ pattern ++ "\">"),
       div "finding-header"
        [span "line-num" ("L" ++ toString f.line),
         element "span" [("class", "severity-icon")] [line (severityIcon f.severity)],
         span "pattern-name" pattern],
       leaf "div" [("class", "finding-description")] (escapeText f.message),
       div ("finding-impact impact-" ++ impact)
        [line ("Impact: " ++ inlineText "span" [("class", "impact-level")] impact)],
       each (if code.isEmpty then [] else [code]) codeSnippet],
     line "</div>"]

def fileSection (e : String × List Finding) : Markup :=
  element "div" [("class", "file-section"), ("data-file", escapeText e.1)]
    [leaf "h3" [] (escapeText (Path.ofString e.1).name), line "", each e.2 findingItem]

def scriptCard (s : String × FileFindings) : Markup :=
  let name := escapeText s.1
  let b := severityCountsOf (s.2.flatMap (·.2))
  element "div" [("class", "mod-card"), ("data-mod", name)]
    [div "mod-header"
      [leaf "h2" [("class", "collapsible")] name,
       element "span" [("class", "mod-meta")]
        [line (toString s.2.length ++ " file" ++ if s.2.length = 1 then "" else "s"),
         element "span" [("class", "mod-breakdown")]
          [line ("(🟢" ++ toString b.green ++ " "), line (" 🟡" ++ toString b.yellow ++ " "),
           line (" 🔴" ++ toString b.red ++ " "), line (" 🔵" ++ toString b.debug ++ ")")]]],
     line "",
     div "collapsible-content" [each s.2 fileSection]]

def severityStat (s : Severity) (count : Nat) : Markup :=
  span ("stat " ++ severityClass s) (severityIcon s ++ " " ++ s.name ++ ": " ++ toString count)

def impactStat (r : Report) (i : Impact) : Markup :=
  leaf "span" [("class", "stat impact-" ++ i.name), ("id", "summaryImpact" ++ i.name.capitalize)]
    (i.name.map Char.toUpper ++ ": " ++ toString (r.countImpact i))

def summarySection (title cls : String) (stats : List Markup) : Markup :=
  div "summary-section" [leaf "h4" [] title, div cls stats]

def mainContent (r : Report) (generated : String) : Markup :=
  let b := r.summary
  let issues := r.topIssues 10
  together
    [div "header"
      [leaf "h1" [] (inlineText "span" [("class", "flao-logo")] "FLAO" ++ " Analysis Report"),
       leaf "p" [] ("Generated on: " ++ generated)],
     line "",
     div "summary"
      [leaf "h2" [] "Summary", line "",
       summarySection "Severity Breakdown" "summary-stats"
        [severityStat .green b.green, severityStat .yellow b.yellow, severityStat .red b.red,
         severityStat .debug b.debug, span "stat total" ("TOTAL: " ++ toString r.total)],
       line "",
       summarySection "Performance Impact (filtered)" "summary-stats impact-stats"
        (impacts.map r.impactStat),
       line "",
       each (if issues.isEmpty then [] else [issues]) issueTable],
     line "",
     element "div" [("id", "noResults"), ("class", "no-results hidden")]
      [line "No findings match your current filters."],
     line "",
     each r.sorted scriptCard]

def page (r : Report) (generated : String) : String :=
  let whole := together
    [line "<!DOCTYPE html>", line "<html lang=\"en\">",
     element "head" []
      [line "<meta charset=\"utf-8\">",
       line "<meta name=\"viewport\" content=\"width=device-width, initial-scale=1\">",
       leaf "title" [] ("FLAO Analysis Report - " ++ generated),
       leaf "style" [] ""],
     line "<body>",
     nested
      [div "layout"
        [each [r] sidebar, line "",
         element "main" [("class", "main-content")] [line ("\n" ++ r.mainContent generated 0)]],
       fun _ => "\n", line "", leaf "script" [] "", line ""],
     line "</body>"]
  whole 0 ++ "</html>"

end LuaTune.Report
