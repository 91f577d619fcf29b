import Gazetteer.Text.Edit
import Gazetteer.Kind
import Gazetteer.WordSet.Algebra
import Gazetteer.Catalog.Lexicon
import Gazetteer.Catalog.Listing
import Gazetteer.Catalog.Concat
import Gazetteer.Handle
import Gazetteer.Forest.Lookup
import Gazetteer.Forest.Family
import Gazetteer.Forest.Rebuild
import Gazetteer.Forest.Audit
import Gazetteer.Forest.KeyTable
import Gazetteer.Forest.Cursor
import Gazetteer.Forest.Render
import Gazetteer.Directory.Similar
import Gazetteer.Directory.Rebuild
import Gazetteer.Directory.Bytes
import Gazetteer.TwoSided
import Gazetteer.CrossReference.Draft
import Gazetteer.CrossReference.Query
import Gazetteer.Proofs.Nesting
import Gazetteer.Proofs.Forest.WellFormed
import Gazetteer.Proofs.Forest.Drafting
import Gazetteer.Proofs.Forest.Editing
import Gazetteer.Proofs.Forest.Lookup
import Gazetteer.Proofs.Forest.Family
import Gazetteer.Proofs.Forest.Endpoints
import Gazetteer.Proofs.Digraph.Drafting
import Gazetteer.Proofs.Digraph.Reach
import Gazetteer.Proofs.Digraph.Distance
import Gazetteer.Proofs.Catalog.Lexicon
import Gazetteer.Proofs.Directory.WellFormed
import Gazetteer.Proofs.Directory.Drafting
import Gazetteer.Proofs.Directory.Primacy
import Gazetteer.Proofs.Directory.Rebuilding
import Gazetteer.Proofs.Wire.RoundTrip
import Gazetteer.Proofs.Wire.Shortage
import Gazetteer.Proofs.Directory.Bytes
import Gazetteer.Proofs.Forest.LookupAfterEdit
import Gazetteer.Proofs.Forest.Entries
import Gazetteer.Proofs.TwoSided
import Gazetteer.Proofs.Directory.AsForest
import Gazetteer.Proofs.Directory.Integrity
import Gazetteer.Proofs.Column
import Gazetteer.Proofs.Directory.Layout
import Gazetteer.Proofs.Directory.Position
import Gazetteer.Proofs.CrossReference.Drafting
import Gazetteer.Proofs.CrossReference.InPlace
import Gazetteer.Proofs.CrossReference.Interleaving
import Gazetteer.Proofs.Directory.Draftable
import Gazetteer.Proofs.Directory.Editing
import Gazetteer.Proofs.Directory.Shadowing
import Gazetteer.Proofs.Directory.Insertion
import Gazetteer.Proofs.Digraph.EdgeSet
import Gazetteer.Proofs.Forest.Succession
import Gazetteer.Proofs.Directory.Succession
import Gazetteer.Proofs.Succession
import Gazetteer.Proofs.Forest.CarriedOver
import Gazetteer.Proofs.Forest.Retaining
import Gazetteer.Proofs.Text.Order
import Gazetteer.Proofs.Directory.OrderAfterEdit
import Gazetteer.Proofs.Directory.Removal
import Gazetteer.Proofs.Directory.Layers
import Gazetteer.Proofs.WordSet.Scan
import Gazetteer.Proofs.Digraph.RootsAndLeaves
import Gazetteer.Proofs.WordSet.FiniteSet
import Gazetteer.Proofs.CrossReference.Suggestions
import Gazetteer.Proofs.Forest.KeyTable
import Gazetteer.Proofs.Catalog.Assembly
