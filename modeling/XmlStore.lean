import XmlStore.Main
import XmlStore.Markup.Bound
import XmlStore.Proofs.Integrity
import XmlStore.Proofs.Remembered
import XmlStore.Proofs.Uncached
import XmlStore.Proofs.CacheRuns
import XmlStore.Proofs.Outcomes
import XmlStore.Proofs.Pieces
import XmlStore.Proofs.Tags
import XmlStore.Proofs.Contents
import XmlStore.Proofs.Reread
import XmlStore.Proofs.Prologs
import XmlStore.Proofs.Reparse
import XmlStore.Proofs.WholeDoubles
import XmlStore.Proofs.InOrder
import XmlStore.Proofs.Locators
import XmlStore.Proofs.LocatorSteps
import XmlStore.Proofs.Locations
import XmlStore.Proofs.Proper
import XmlStore.Proofs.Spelling
import XmlStore.Proofs.Trails
import XmlStore.Proofs.Atomic
import XmlStore.Proofs.Saved
import XmlStore.Proofs.Selections
import XmlStore.Proofs.Kinds
import XmlStore.Proofs.NodeSets
import XmlStore.Proofs.Productions
import XmlStore.Proofs.Tokens
import XmlStore.Proofs.Derived
import XmlStore.Proofs.Readings
import XmlStore.Proofs.Phrases
import XmlStore.Proofs.Walks
import XmlStore.Proofs.Axes
import XmlStore.Proofs.Layouts
import XmlStore.Proofs.Legible
import XmlStore.Proofs.WellFormed
import XmlStore.Proofs.Regrafts
import XmlStore.Proofs.Includes
import XmlStore.Proofs.Splicing
import XmlStore.Proofs.Pending
import XmlStore.Proofs.Openings
import XmlStore.Proofs.Restored
import XmlStore.Proofs.Expansions
import XmlStore.Proofs.Origins
import XmlStore.Proofs.Encoded
import XmlStore.Proofs.Marks
import XmlStore.Proofs.Rewritten
import XmlStore.Proofs.Overwritten
import XmlStore.Proofs.Exchanges
import XmlStore.Proofs.Withdrawn
import XmlStore.Proofs.Splits
import XmlStore.Proofs.Refusals
import XmlStore.Proofs.HandleRuns
import XmlStore.Proofs.Reports
import XmlStore.Proofs.Isomorphisms
import XmlStore.Proofs.Blanks
import XmlStore.Proofs.Scopes
import XmlStore.Proofs.Reopened
import XmlStore.Proofs.Exports
import XmlStore.Proofs.Swapped
import XmlStore.Proofs.Duplicates
import XmlStore.Proofs.Identified
import XmlStore.Proofs.AnyDepth
import XmlStore.Proofs.Siblings
import XmlStore.Proofs.Bindings
import XmlStore.Proofs.Declared
import XmlStore.Proofs.Answers
import XmlStore.Proofs.Insertions
import XmlStore.Proofs.NamedAttributes
import XmlStore.Proofs.LinkTargets
import XmlStore.Proofs.Fragments
import XmlStore.Proofs.Reimported
import XmlStore.Proofs.LineEnds
import XmlStore.Proofs.AnyLineEnds
import XmlStore.Proofs.Literals
import XmlStore.Proofs.Positions
import XmlStore.Proofs.ReportedPositions
import XmlStore.Proofs.Searches
import XmlStore.Proofs.EncodingLabels
import XmlStore.Proofs.DeclaredEncodings
import XmlStore.Proofs.ArrayPositions
import XmlStore.Proofs.Nesting
import XmlStore.Proofs.Inclusions
import XmlStore.Proofs.ChildPaths
import XmlStore.Proofs.Tables
import XmlStore.Proofs.Matrices
import XmlStore.Proofs.DecimalTexts
import XmlStore.Proofs.FormatTexts
import XmlStore.Proofs.DecimalPoints
import XmlStore.Proofs.WrittenIntegers
import XmlStore.Proofs.VectorTexts
import XmlStore.Proofs.Vectors
import XmlStore.Proofs.TokenTexts
import XmlStore.Proofs.Mentions
import XmlStore.Proofs.InForce
import XmlStore.Proofs.KeyedAttributes
