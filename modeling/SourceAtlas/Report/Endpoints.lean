import SourceAtlas.Report.Content

/-!
# The endpoint table
-/

namespace SourceAtlas.Report

def isRequest (payload : Text) : Bool :=
  occursIn "Request".toList payload

/-- The row of an endpoint. Its first request and its first other payload are shown. -/
def EndpointRow.ofEndpoint (endpoint : Endpoint) : EndpointRow :=
  { route := endpoint.route
    httpMethod := endpoint.httpMethod
    controller := endpoint.container
    handler := endpoint.handler
    request := (endpoint.payloads.find? isRequest).getD []
    response := (endpoint.payloads.find? fun payload => !isRequest payload).getD [] }

def cell (text : Text) : Text :=
  replaceAll ['|'] ['\\', '|'] text

def EndpointRow.line (row : EndpointRow) : Text :=
  "| ".toList ++ code (cell row.route) ++ " | ".toList ++ row.httpMethod ++ " | ".toList ++
    cell row.controller ++ " | ".toList ++ cell row.handler ++ " | ".toList ++
    cell row.request ++ " | ".toList ++ cell row.response ++ " |".toList

def rowLines (rows : List EndpointRow) : List Text :=
  if rows.isEmpty then ["| _No endpoints found_ | | | | | |".toList] else rows.map (·.line)

/-- Endpoints are sorted by route, then by HTTP method. -/
def endpointPrecedes (first second : Endpoint) : Bool :=
  if first.route = second.route then !decide (second.httpMethod < first.httpMethod)
  else decide (first.route < second.route)

/-- The files a rule selects; a rule without filters selects all. -/
def selectFiles (rule : Option Rule) (files : List FileSummary) : List FileSummary :=
  match rule with
  | none => files
  | some rule =>
    if rule.hasFilters then files.filter fun file => rule.covers file.path file.extension
    else files

def endpointRows (rule : Option Rule) (files : List FileSummary) : List EndpointRow :=
  (((selectFiles rule files).flatMap (·.endpoints)).mergeSort endpointPrecedes).map
    EndpointRow.ofEndpoint

def endpointLines (style : MarkdownStyle) (description : Option Text) (rows : List EndpointRow) :
    List Text :=
  [style.title ++ " API Endpoints".toList, []] ++ descriptionLines description ++
    ["| Route | HTTP Method | Controller | Handler | Request DTO | Response DTO |".toList,
      "|-------|-------------|------------|---------|-------------|--------------|".toList] ++
    rowLines rows

/-- What the endpoint table shows. -/
def endpointContent (rule : Option Rule) (files : List FileSummary) : Content :=
  .endpoints (rule.bind (·.description)) (endpointRows rule files)

end SourceAtlas.Report
