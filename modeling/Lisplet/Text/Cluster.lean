import Lisplet.Text.Cluster.Class

/-! Clusters: the pieces of a text that a reader takes for single characters, by the rules for
extended grapheme clusters. -/
namespace Lisplet.Text

namespace ClusterClass

/-- Whether a character stands alone, whatever is around it. -/
def isBarrier : ClusterClass → Bool
  | carriageReturn => true
  | lineFeed => true
  | control => true
  | _ => false

/-- Whether a character belongs to the one before it. -/
def isAttached : ClusterClass → Bool
  | extend => true
  | joiner => true
  | spacing => true
  | _ => false

/-- Whether two neighbours are parts of one Hangul syllable. -/
def inSyllable : ClusterClass → ClusterClass → Bool
  | leading, leading => true
  | leading, vowel => true
  | leading, openSyllable => true
  | leading, closedSyllable => true
  | openSyllable, vowel => true
  | openSyllable, trailing => true
  | vowel, vowel => true
  | vowel, trailing => true
  | closedSyllable, trailing => true
  | trailing, trailing => true
  | _, _ => false

end ClusterClass

/-- What the rules have to know of the text before a character: the class of its last character,
whether an odd number of regional indicators ends it, whether a pictograph with its extensions
does, and then a joiner, and whether a consonant with its extensions does, a linker among them. -/
structure ClusterContext where
  last : ClusterClass
  oddRegional : Bool
  pictograph : Bool
  joined : Bool
  consonant : Bool
  linked : Bool

namespace ClusterContext

def start : ClusterContext := ⟨.control, false, false, false, false, false⟩

def next (x : ClusterContext) (c : Char) : ClusterContext :=
  let kind := ClusterClass.of c
  let role := ConjunctRole.of c
  { last := kind
    oddRegional := kind = .regional && !x.oddRegional
    pictograph := kind = .pictograph || kind = .extend && x.pictograph
    joined := kind = .joiner && x.pictograph
    consonant := role = .consonant || role ≠ .none && x.consonant
    linked := role = .linker && x.consonant || role = .extend && x.linked }

/-- Whether a character goes on with the last cluster. -/
def joins (x : ClusterContext) (c : Char) : Bool :=
  match x.last, ClusterClass.of c with
  | .carriageReturn, .lineFeed => true
  | last, kind =>
    !last.isBarrier && !kind.isBarrier
      && (kind.isAttached || last = .prepend || last.inSyllable kind
        || x.linked && ConjunctRole.of c = .consonant
        || x.joined && kind = .pictograph
        || x.oddRegional && kind = .regional)

end ClusterContext

/-- The clusters of a text whose first cluster starts with `cluster`, its last character first. -/
def clustersFrom (x : ClusterContext) (cluster : List Char) : List Char → List (List Char)
  | [] => [cluster.reverse]
  | c :: rest =>
    if x.joins c then clustersFrom (x.next c) (c :: cluster) rest
    else cluster.reverse :: clustersFrom (x.next c) [c] rest

def clusters : List Char → List (List Char)
  | [] => []
  | c :: rest => clustersFrom (ClusterContext.start.next c) [c] rest

theorem flatten_clustersFrom (x : ClusterContext) (cluster cs : List Char) :
    (clustersFrom x cluster cs).flatten = cluster.reverse ++ cs := by
  induction cs generalizing x cluster with
  | nil => simp [clustersFrom]
  | cons c rest ih =>
    rw [clustersFrom]
    split <;> simp [ih]

/-- The clusters of a text make up the text. -/
@[simp] theorem flatten_clusters (cs : List Char) : (clusters cs).flatten = cs := by
  cases cs with
  | nil => rfl
  | cons c rest => simp [clusters, flatten_clustersFrom]

end Lisplet.Text
