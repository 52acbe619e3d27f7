import StackToHack.Machine.Assembler
import StackToHack.Main
import StackToHack.Proofs.Linking
import StackToHack.Proofs.StackMachine
import StackToHack.Proofs.Fragments
import StackToHack.Proofs.Frames
import StackToHack.Proofs.Calls
import StackToHack.Proofs.Resolution
import StackToHack.Proofs.Variables
import StackToHack.Proofs.Simulation
import StackToHack.Proofs.Runs
import StackToHack.Proofs.Units
import StackToHack.Proofs.Collisions
import StackToHack.Proofs.Startup
import StackToHack.Proofs.History
import StackToHack.Proofs.Independence
import StackToHack.Proofs.Grammar
import StackToHack.Proofs.Sources
import StackToHack.Proofs.Printing
import StackToHack.Proofs.Legality
import StackToHack.Proofs.Reports
import StackToHack.Proofs.Streaming
import StackToHack.Proofs.Annotation
import StackToHack.Proofs.Vocabulary
import StackToHack.Proofs.Statics
import StackToHack.Proofs.Privacy
import StackToHack.Proofs.Builds
import StackToHack.Proofs.Rebuilds
import StackToHack.Proofs.Comparisons
import StackToHack.Proofs.Failures
import StackToHack.Proofs.Concatenation
import StackToHack.Proofs.Loads
import StackToHack.Proofs.Entries
import StackToHack.Proofs.Inputs
import StackToHack.Proofs.OutputNames
import StackToHack.Proofs.Warnings
import StackToHack.Proofs.Effects
