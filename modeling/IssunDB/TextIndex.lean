import IssunDB.Storage
import IssunDB.Tokenize

/-!
# Full-text index maintenance

A text index on a label and a property keeps, per node, a document entry with its token count and
one posting per term, and per index the number of documents and of tokens. The entries of a node
are removed by tokenizing its old text again.
-/

namespace IssunDB.Tables

variable [TextLib]

/-- The language of a text index, English if none is stored. -/
def getFtsIndexLanguage (s : Tables) (l : LabelId) (p : PropKeyId) : Language :=
  match s.metaDb.ftsMeta.get (l, p) with
  | some b => .fromU8 b
  | none => .english

/-- Whether a property of a label has a text index. -/
def hasNodeTextIndex (s : Tables) (label property : String) : Bool :=
  match s.getLabel label, s.getPropKey property with
  | some l, some p => (s.metaDb.ftsMeta.get (l, p)).isSome
  | _, _ => false

/-- The properties of a label with a text index, in the order of their keys as text. -/
def activeTextIndexesForLabel (s : Tables) (l : LabelId) : List PropKeyId :=
  byDecimal (s.metaDb.ftsMeta.keys.under l)

/-- The postings of a document. -/
def postingsOf (l : LabelId) (p : PropKeyId) (n : NodeId) (terms : Table String ℕ) :
    Finset (LabelId × PropKeyId × String × NodeId × ℕ) :=
  (terms.toList.map fun e => (l, p, e.1, n, e.2)).toFinset

/-- Write the document entry and the postings of one node. -/
def putDoc (l : LabelId) (p : PropKeyId) (n : NodeId) (terms : Table String ℕ) (s : Tables) :
    Tables :=
  { s with
    ftsDocs := s.ftsDocs.put (l, p, n) (tokenCount terms)
    ftsPostings := s.ftsPostings ∪ postingsOf l p n terms }

/-- Index a text as a document; one without tokens leaves no trace. -/
def addNodePropFtsEntry (n : NodeId) (l : LabelId) (p : PropKeyId) (text : String) (s : Tables) :
    Tables :=
  let terms := tokenize text (s.getFtsIndexLanguage l p)
  if 0 < tokenCount terms then
    let s' := putDoc l p n terms s
    { s' with metaDb := { s'.metaDb with
        ftsN := s.metaDb.ftsN.put (l, p) ((s.metaDb.ftsN.get (l, p)).getD 0 + 1)
        ftsSumDl := s.metaDb.ftsSumDl.put (l, p)
          ((s.metaDb.ftsSumDl.get (l, p)).getD 0 + tokenCount terms) } }
  else s

/-- Remove a document, as it would be tokenized now. -/
def removeNodePropFtsEntry (n : NodeId) (l : LabelId) (p : PropKeyId) (text : String)
    (s : Tables) : Tables :=
  match s.ftsDocs.get (l, p, n) with
  | none => s
  | some docLen =>
    { s with
      ftsDocs := s.ftsDocs.erase (l, p, n)
      ftsPostings :=
        s.ftsPostings \ postingsOf l p n (tokenize text (s.getFtsIndexLanguage l p))
      metaDb := { s.metaDb with
        ftsN := s.metaDb.ftsN.put (l, p) ((s.metaDb.ftsN.get (l, p)).getD 0 - 1)
        ftsSumDl := s.metaDb.ftsSumDl.put (l, p)
          ((s.metaDb.ftsSumDl.get (l, p)).getD 0 - docLen) } }

/-- The texts among the properties that an index covers. -/
def ftsTexts (s : Tables) (l : LabelId) (props : Props) : List (PropKeyId × String) :=
  (s.activeTextIndexesForLabel l).filterMap fun p =>
    match s.getPropKeyName p with
    | some name =>
      match props.get name with
      | some (.string text) => some (p, text)
      | _ => none
    | none => none

/-- Index all texts of a node under a label. -/
def indexNodeFts (n : NodeId) (l : LabelId) (props : Props) (s : Tables) : Tables :=
  (s.ftsTexts l props).foldl (fun s e => s.addNodePropFtsEntry n l e.1 e.2) s

/-- Remove all texts of a node under a label. -/
def deleteNodeFts (n : NodeId) (l : LabelId) (props : Props) (s : Tables) : Tables :=
  (s.ftsTexts l props).foldl (fun s e => s.removeNodePropFtsEntry n l e.1 e.2) s

/-- Write the documents of existing nodes, returning how many there are and their token count. -/
def backfillText (l : LabelId) (p : PropKeyId) (property : String) (lang : Language) :
    List NodeId → ℕ × ℕ → Exec Error Tables (ℕ × ℕ)
  | [], acc => pure acc
  | n :: ns, (count, total) => do
    let s ← Exec.get
    match s.nodes.get n with
    | none => Exec.throw (.nodeNotFound n)
    | some record =>
      match record.props.get property with
      | some (.string text) =>
        let terms := tokenize text lang
        if 0 < tokenCount terms then do
          Exec.modify (putDoc l p n terms)
          backfillText l p property lang ns (count + 1, total + tokenCount terms)
        else backfillText l p property lang ns (count, total)
      | _ => backfillText l p property lang ns (count, total)

/-- Declare a text index and fill it from the nodes of the label. -/
def createNodeTextIndex (label property : String) (lang : Language) : Exec Error Tables Unit := do
  let l ← Exec.state (getOrCreateLabel label)
  let p ← Exec.state (getOrCreatePropKey property)
  let s ← Exec.get
  if (s.metaDb.ftsMeta.get (l, p)).isSome then pure ()
  else do
    let (count, total) ← backfillText l p property lang (s.nodesByLabel label) (0, 0)
    Exec.modify fun s => { s with metaDb := { s.metaDb with
      ftsMeta := s.metaDb.ftsMeta.put (l, p) lang.toU8
      ftsN := s.metaDb.ftsN.put (l, p) count
      ftsSumDl := s.metaDb.ftsSumDl.put (l, p) total } }

/-- Drop a text index with its documents, postings and statistics. -/
def dropNodeTextIndex (label property : String) (s : Tables) : Tables :=
  let (l, s) := s.getOrCreateLabel label
  let (p, s) := s.getOrCreatePropKey property
  if (s.metaDb.ftsMeta.get (l, p)).isSome then
    { s with
      ftsPostings := s.ftsPostings.filter fun e => ¬(e.1 = l ∧ e.2.1 = p)
      ftsDocs := s.ftsDocs.eraseIf fun k => k.1 = l ∧ k.2.1 = p
      metaDb := { s.metaDb with
        ftsMeta := s.metaDb.ftsMeta.erase (l, p)
        ftsN := s.metaDb.ftsN.erase (l, p)
        ftsSumDl := s.metaDb.ftsSumDl.erase (l, p) } }
  else s

end IssunDB.Tables
