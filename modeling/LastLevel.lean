import LastLevel.CommandLine.Run
import LastLevel.Main
import LastLevel.Proofs.Blocks
import LastLevel.Proofs.Counts
import LastLevel.Proofs.Recency
import LastLevel.Proofs.StackDistance
import LastLevel.Proofs.Isolation
import LastLevel.Proofs.Renaming
import LastLevel.Proofs.Steering
import LastLevel.Proofs.Clustering
import LastLevel.Proofs.Inclusion
import LastLevel.Proofs.Levels
import LastLevel.Proofs.Faults
import LastLevel.Proofs.Conservation
import LastLevel.Proofs.Dumps
import LastLevel.Proofs.Interleaving
import LastLevel.Proofs.Families
import LastLevel.Proofs.Grammar
import LastLevel.Proofs.Totality
import LastLevel.Proofs.Outlines
import LastLevel.Proofs.Sections
import LastLevel.Proofs.Scattering
import LastLevel.Proofs.Contents
import LastLevel.Proofs.CoreShares
import LastLevel.Proofs.Capacity
import LastLevel.Proofs.Locations
import LastLevel.Proofs.Geometries
import LastLevel.Proofs.Traffic
import LastLevel.Proofs.Partitions
import LastLevel.Proofs.Squeezing
import LastLevel.Proofs.Documents
