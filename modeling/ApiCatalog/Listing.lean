import ApiCatalog.Document
import ApiCatalog.Text.Cut

namespace ApiCatalog.Document

-- The first line of a text, without the carriage return that may end it.
def firstLine (text : List Char) : List Char :=
  let line := text.takeWhile (· != '\n')
  if (text.dropWhile (· != '\n')).isEmpty then line
  else (Text.dropSuffix? line ['\r']).getD line

-- Methods are padded to a column of seven characters.
def endpointLine (e : Endpoint) : List Char :=
  let method := e.method.text.toList
  Text.trimEnd (' ' :: ' ' :: method ++ List.replicate (7 - method.length) ' ' ++
    ' ' :: e.url.toList ++ ' ' :: firstLine e.title.toList)

def groupLine (name : String) (g : Group) : List Char :=
  if g.url = "" then name.toList else name.toList ++ ' ' :: g.url.toList

def groupLines (name : String) (g : Group) : List (List Char) :=
  groupLine name g :: g.endpoints.map endpointLine

-- A line for each group, each followed by a line for each of its endpoints.
def listing (d : Document) : String :=
  String.ofList ((d.groups.entries.flatMap fun (name, g) => groupLines name g).flatMap
    (· ++ ['\n']))

end ApiCatalog.Document
