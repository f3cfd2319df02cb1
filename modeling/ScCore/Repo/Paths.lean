import ScCore.Types

/-!
# Paths

URIs of segments and directories, and how `sc_core.cpp` and `string_util.h` take
them apart. Nothing stands for an assertion that fails.
-/

namespace ScCore.Repo

/-- `sc_string`. -/
abbrev Uri := List Char

/-- `normalize_uri`, behind a slash or not: only the first slash of several is copied. -/
def normalizeFrom : Bool → Uri → Uri
  | _, [] => []
  | slash, c :: uri =>
      if c = '/' then
        if slash then normalizeFrom true uri else '/' :: normalizeFrom true uri
      else c :: normalizeFrom false uri

def normalizeUri (uri : Uri) : Uri := normalizeFrom false uri

def stripSlashes (uri : Uri) : Uri := (uri.reverse.dropWhile (· = '/')).reverse

def lastPart (uri : Uri) : Uri := (uri.reverse.takeWhile (· ≠ '/')).reverse

def upToLast (uri : Uri) : Uri := (uri.reverse.dropWhile (· ≠ '/')).reverse

/-- The URI of the segment with the sign, and the name of the sign in it, as `find_meta`
takes them from a normalized URI. -/
def metaOf (uri : Uri) : Uri × Uri :=
  let uri := normalizeUri uri
  if uri = ['/'] then ("/META".toList, "ROOT".toList)
  else
    let uri := stripSlashes uri
    (upToLast uri ++ "META".toList, lastPart uri)

/-- `basename`. Of a name without a slash it takes away the first character. -/
def basename (uri : Uri) : Uri :=
  let uri := stripSlashes uri
  if '/' ∈ uri then lastPart uri else uri.drop 1

/-- `dirname`. The first character is kept even if it is a slash. -/
def dirname (uri : Uri) : Uri :=
  match stripSlashes (upToLast (stripSlashes uri)), uri with
  | [], c :: _ => [c]
  | dir, _ => dir

inductive RepoId where
  | root
  | tmp
  | proc
  deriving DecidableEq, Repr

/-- `get_uri` of a repository. -/
def RepoId.uri : RepoId → Uri
  | .root => "/".toList
  | .tmp => "/tmp/".toList
  | .proc => "/proc/".toList

/-- `find_repo`: the repository, and the rest of the URI behind that of the repository. -/
def findRepo (uri : Uri) : Option (RepoId × Uri) :=
  if uri.head? ≠ some '/' then none
  else if RepoId.tmp.uri.isPrefixOf uri then some (.tmp, uri.drop RepoId.tmp.uri.length)
  else if RepoId.proc.uri.isPrefixOf uri then some (.proc, uri.drop RepoId.proc.uri.length)
  else some (.root, uri.drop 1)

end ScCore.Repo
