import BeamDisasm.Main
import BeamDisasm.Proofs.CodeRoundTrip
import BeamDisasm.Proofs.CrossReferences
import BeamDisasm.Proofs.ExtTermRoundTrip
import BeamDisasm.Proofs.ModuleFile
import BeamDisasm.Proofs.TermRoundTrip
import BeamDisasm.Proofs.Truncation
import BeamDisasm.Proofs.UnresolvedJump
import BeamDisasm.Survey.Blocks
import BeamDisasm.Survey.Command
import BeamDisasm.Survey.Terms
import BeamDisasm.Proofs.LabelOrder
import BeamDisasm.Proofs.Discovery
import BeamDisasm.Proofs.Listings
import BeamDisasm.Proofs.Paths
import BeamDisasm.Proofs.OutputFiles
import BeamDisasm.Proofs.FunctionLayout
import BeamDisasm.Proofs.StoredStreams
import BeamDisasm.Proofs.Tables
import BeamDisasm.Proofs.SampleModule
import BeamDisasm.Proofs.GraphOrder
import BeamDisasm.Proofs.AnnotationOrder
import BeamDisasm.Proofs.ReaderBounds
import BeamDisasm.Proofs.TermBounds
import BeamDisasm.Proofs.ModuleBounds
import BeamDisasm.Proofs.ReaderFaults
import BeamDisasm.Proofs.Loading
import BeamDisasm.Proofs.SearchDepth
import BeamDisasm.Proofs.FoundFiles
import BeamDisasm.Proofs.KeptListings
import BeamDisasm.Proofs.LinkMirror
import BeamDisasm.Proofs.BlockContents
import BeamDisasm.Proofs.SourceOrder
import BeamDisasm.Proofs.SwitchLinks
import BeamDisasm.Proofs.SelfDelimiting
import BeamDisasm.Proofs.CallNotes
import BeamDisasm.Proofs.Renderings
import BeamDisasm.Proofs.AnnotationFaults
import BeamDisasm.Proofs.Contents
import BeamDisasm.Proofs.LineBreaks
import BeamDisasm.Proofs.OneLine
import BeamDisasm.Proofs.ShownOperands
import BeamDisasm.Proofs.SampleKinds
import BeamDisasm.Proofs.LineFiles
import BeamDisasm.Proofs.ExtIntegers
import BeamDisasm.Proofs.TableForms
import BeamDisasm.Proofs.NumberForms
